import PathQuery.Json.Reader
import PathQuery.Query.Answer
import PathQuery.Regex.Reader

namespace PathQuery

/-- What a regular expression says of texts. -/
def Regex.pattern (p : Regex) : Pattern := ⟨p.isMatch, p.split⟩

/-- Readers by `Value.ofText?` and, with the flags, classes and escapes that it knows, by `Regex.ofText?`. -/
def Readers.standard : Readers where
  json? := Value.ofText?
  pattern s fold :=
    match Regex.ofText? s fold with
    | some p => .ok p.pattern
    | none => .error "expected a regular expression"

/-- Some functions with the standard readers. -/
def Env.standard (fs : List Function) : Env := { Readers.standard with functions := fs }

/-- A list of functions stands for the standard readers with these functions. -/
instance : Coe (List Function) Env := ⟨.standard⟩

/-- Compiles a query by the standard readers. -/
def Query.compile (s : String) : Except SyntaxError Query := compileWith (.standard []) s

end PathQuery
