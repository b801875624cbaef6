import PathQuery.Json.Printer
import PathQuery.Query.Edit
import PathQuery.Standard

namespace PathQuery

inductive Action
  | list
  | replace (new : Value)
  | remove

structure Invocation where
  query : String
  flags : Flags
  action : Action

/-- Why a command line has no answer. -/
inductive CommandError
  | usage (message : String)
  | badJson
  | badQuery (e : SyntaxError)
  | failed (e : EvalError)

def CommandError.message : CommandError → String
  | usage message => message
  | badJson => "invalid JSON"
  | badQuery e => e.message
  | failed e => e.message

namespace Invocation

/-- Reads arguments, given the query, the flags and the action of those before them. -/
def ofArgsAfter (r : Readers) (query : Option String) (flags : Flags) (action : Action) :
    List String → Except CommandError Invocation
  | [] =>
    match query with
    | some query => .ok ⟨query, flags, action⟩
    | none => .error (.usage "First argument must be a JSONPath query.")
  | "--path" :: args => ofArgsAfter r query (flags.union .paths) action args
  | "--nodups" :: args => ofArgsAfter r query (flags.union .distinct) action args
  | "--sort" :: args => ofArgsAfter r query (flags.union .ascending) action args
  | "--sort-desc" :: args => ofArgsAfter r query (flags.union .descending) action args
  | "--remove" :: args => ofArgsAfter r query flags .remove args
  | ["--replace"] => .error (.usage "--replace needs a JSON value")
  | "--replace" :: text :: args =>
    match r.json? text with
    | some new => ofArgsAfter r query flags (.replace new) args
    | none => .error .badJson
  | arg :: args =>
    if arg.startsWith "--" then .error (.usage ("unknown flag: " ++ arg))
    else if query.isSome then .error (.usage "expected a single query argument")
    else ofArgsAfter r (some arg) flags action args

def ofArgs (args : List String) : Except CommandError Invocation := ofArgsAfter .standard none .plain .list args

/-- The value to print. -/
def answer (i : Invocation) (q : Query) (doc : Value) : Except EvalError Value :=
  match i.action with
  | .list => (q.evaluate i.flags doc).result
  | .replace new => ((q.replace new doc).map Edited.doc).result
  | .remove => ((q.remove doc).map Prod.fst).result

/-- The text to print for an input. -/
def runWith (env : Env) (i : Invocation) (input : String) : Except CommandError String :=
  match env.json? input with
  | none => .error .badJson
  | some doc =>
    match Query.compileWith env i.query with
    | .error e => .error (.badQuery e)
    | .ok q =>
      match i.answer q doc with
      | .error e => .error (.failed e)
      | .ok v => .ok v.indented

def run (i : Invocation) (input : String) : Except CommandError String := i.runWith (.standard []) input

end Invocation

end PathQuery
