import PathQuery.Json.Value

namespace PathQuery

/-- Why an evaluation fails. -/
inductive EvalError
  | badArgument (function message : String)
  /-- An argument that should be a regular expression is none; the message is that of its reader. -/
  | badPattern (function : String) {message : String}
  | failed (message : String)
  | malformed
  deriving DecidableEq

def EvalError.message : EvalError → String
  | badArgument function message => function ++ ": " ++ message
  | @badPattern function message => function ++ ": " ++ message
  | failed message => message
  | malformed => "Malformed expression"

/-- A function. Without an arity it takes any number of arguments. -/
structure Function where
  name : String
  arity : Option Nat
  body : List Value → Except EvalError Value

def Function.accepts (f : Function) (arguments : Nat) : Bool := f.arity.all (· == arguments)

namespace Function

/-- The function of that name that was listed last. -/
def find? (name : String) (fs : List Function) : Option Function :=
  fs.reverse.find? (·.name == name)

end Function

end PathQuery
