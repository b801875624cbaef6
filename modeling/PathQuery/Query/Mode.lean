import PathQuery.Query.Slice
import PathQuery.Text.Alphabetic
import PathQuery.Text.Blank
import PathQuery.Text.Escape

namespace PathQuery

/-- What a name without quotes is for. -/
inductive BareUse
  | member
  /-- A call at the start of a query. -/
  | query
  /-- A call or keyword in an expression. -/
  | operand
  deriving DecidableEq

/-- What a text in quotes is for. -/
inductive QuotedUse
  | member
  | literal
  deriving DecidableEq

/-- Which integer of an index or slice is being read, with the bounds before it. -/
inductive Bound
  | first
  | stop (start : Option Int)
  | step (start stop : Option Int)
  deriving DecidableEq

/-- What comes next in a query. Texts that are partly read come last character first. -/
inductive Mode
  | start
  | bareName (use : BareUse) (read : List Char)
  /-- Behind the name of the call that a query starts with. -/
  | queryCall (name : String)
  /-- Behind a part of a path. -/
  | path
  /-- Behind a dot. -/
  | dot
  /-- Behind two dots. -/
  | descent
  | dotName
  | quoted (quote : Char) (use : QuotedUse) (read : List Char)
  | escape (quote : Char) (use : QuotedUse) (read : List Char) (e : Text.Escape)
  /-- An element of a bracket list. -/
  | element
  /-- Behind an element of a bracket list. -/
  | elementEnd
  /-- Before the sign of an integer. -/
  | integer (bound : Bound)
  | digits (bound : Bound) (read : List Char)
  /-- Behind an integer. -/
  | boundEnd (bound : Bound) (read : List Char)
  | filterEnd
  | computedEnd
  | operand
  /-- Behind an operand. -/
  | operator
  | number (read : List Char)
  /-- A JSON array or object, with the number of its brackets that are open. -/
  | json (depth : Nat) (read : List Char)
  | jsonString (depth : Nat) (read : List Char)
  | jsonEscape (depth : Nat) (read : List Char)
  /-- Behind a name that is an operand. -/
  | operandName (name : String)
  /-- Behind an argument. -/
  | arguments
  | firstArgument
  /-- Behind `<`. -/
  | less
  /-- Behind `>`. -/
  | greater
  /-- Behind `=`. -/
  | equal
  /-- Behind `!`. -/
  | notEqual
  /-- Behind `|`. -/
  | or
  /-- Behind `&`. -/
  | and
  /-- Before the slash of a regular expression. -/
  | patternStart
  | pattern (read : List Char)
  | patternEscape (read : List Char)
  /-- Behind a regular expression. -/
  | patternEnd (read : List Char)
  deriving DecidableEq

namespace Mode

/-- Bounds how many modes can follow each other without a character being read. -/
def rank : Mode → Nat
  | start => 3
  | bareName _ _ => 2
  | dot => 4
  | descent => 4
  | dotName => 3
  | element => 6
  | integer _ => 3
  | digits _ _ => 2
  | operand => 3
  | firstArgument => 5
  | less => 4
  | greater => 4
  | _ => 1

/-- The ranks of modes added up. -/
def ranks : List Mode → Nat
  | [] => 0
  | mode :: modes => mode.rank + ranks modes

@[simp] theorem ranks_nil : ranks [] = 0 := rfl

@[simp] theorem ranks_cons (mode : Mode) (modes : List Mode) : ranks (mode :: modes) = mode.rank + ranks modes := rfl

@[simp] theorem ranks_append (modes below : List Mode) : ranks (modes ++ below) = ranks modes + ranks below := by
  induction modes with
  | nil => simp
  | cons mode modes ih => simp [ih, Nat.add_assoc]

end Mode

/-- Whether a character can start the name of a function. -/
def isNameStart (c : Char) : Bool := Text.isAlphabetic c || c == '_'

/-- Whether a character ends a name without quotes. A dash does not. -/
def isDelimiter (c : Char) : Bool :=
  Text.isSpace c || ".[](),:'\"=!<>~|&+*/@$?\x7b\x7d".toList.contains c

end PathQuery
