import PathQuery.CommandLine

open PathQuery

def main (args : List String) : IO UInt32 := do
  match Invocation.ofArgs args with
  | .error e =>
    IO.eprintln e.message
    return 1
  | .ok invocation =>
    match invocation.run (← (← IO.getStdin).readToEnd) with
    | .error e =>
      IO.eprintln e.message
      return 1
    | .ok text =>
      IO.println text
      return 0
