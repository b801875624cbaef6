import PathQuery.Function.Basic
import PathQuery.Json.Number
import PathQuery.Readers
import PathQuery.Text.Blank

namespace PathQuery.Library

/-- What a function gives. An argument that is `null`, as when a path led nowhere, makes it `null`; any other argument
of the wrong type is an error. -/
abbrev Result := Except EvalError Value

def length : Value → Result
  | .null => .ok .null
  | .string s => .ok (.ofNat s.length)
  | .array vs => .ok (.ofNat vs.length)
  | .object ms => .ok (.ofNat ms.length)
  | _ => .error (.badArgument "length" "expected an array, object or string")

def keys : Value → Result
  | .null => .ok .null
  | .object ms => .ok (.array (ms.map fun m => .string m.1))
  | _ => .error (.badArgument "keys" "expected an object")

/-- Applies `f` to a number. -/
def onNumber (name : String) (f : Number → Value) : Value → Result
  | .null => .ok .null
  | .number n => .ok (f n)
  | _ => .error (.badArgument name "expected a number")

/-- The absolute value, in integers unless it is `2 ^ 63`. -/
def absNumber (n : Number) : Value :=
  match n.toInt64?.bind fun k => int64? k.natAbs with
  | some k => .ofInt k
  | none => .ofFloat n.toFloat.abs

/-- Rounds a double; an integer stays as it is. -/
def roundNumber (f : Float → Float) (n : Number) : Value :=
  if n.toInt64?.isSome then .number n else .ofFloat (f n.toFloat)

def abs : Value → Result := onNumber "abs" absNumber

def ceil : Value → Result := onNumber "ceil" (roundNumber Float.ceil)

def floor : Value → Result := onNumber "floor" (roundNumber Float.floor)

/-- Applies `f` to the elements of an array of numbers. -/
def onNumbers (name : String) (f : List Number → Value) : Value → Result
  | .null => .ok .null
  | .array vs =>
    match vs.mapM Value.asNumber? with
    | some ns => .ok (f ns)
    | none => .error (.badArgument name "expected an array of numbers")
  | _ => .error (.badArgument name "expected an array of numbers")

/-- Combines numbers from left to right, in integers as long as every result is one of 64 bits, and otherwise all in
doubles. -/
def combine (ints : Int → Int → Int) (floats : Float → Float → Float) (one : Int) (ns : List Number) : Value :=
  match ns.foldlM (fun acc n => n.toInt64?.bind fun k => int64? (ints acc k)) one with
  | some k => .ofInt k
  | none => .ofFloat ((ns.map Number.toFloat).foldl floats (nearestFloat one))

def sum : Value → Result := onNumbers "sum" (combine (· + ·) (· + ·) 0)

def prod : Value → Result :=
  onNumbers "prod" fun ns => if ns.isEmpty then .null else combine (· * ·) (· * ·) 1 ns

/-- The mean in doubles. The sum starts from `-0.0`, which added to any double gives that double. -/
def mean (ns : List Number) : Value :=
  .ofFloat ((ns.map Number.toFloat).foldl (· + ·) (-0.0) / nearestFloat ns.length)

def avg : Value → Result := onNumbers "avg" fun ns => if ns.isEmpty then .null else mean ns

/-- The first number that no later one beats. -/
def extreme (better : Float → Float → Bool) : List Number → Value
  | [] => .null
  | n :: ns => .number (ns.foldl (fun best n => if better n.toFloat best.toFloat then n else best) n)

def min : Value → Result := onNumbers "min" (extreme (· < ·))

def max : Value → Result := onNumbers "max" (extreme fun x y => y < x)

/-- A double with or without sign, point and exponent; digits are needed on one side of the point only. -/
def readFloat? (cs : List Char) : Option Float :=
  let (negative, cs) := match cs with
    | '+' :: cs => (false, cs)
    | '-' :: cs => (true, cs)
    | _ => (false, cs)
  match Decimal.Parts.ofText? cs with
  | none => none
  | some p =>
    if p.isBare then none
    else
      let x := p.toDecimal.toFloat
      some (if negative then -x else x)

/-- The number that a text stands for, blanks around it allowed; `null` if it is none or too large. -/
def numberOfText (s : String) : Value :=
  let cs := Text.trim s.toList
  match (readInt? cs).bind int64? with
  | some k => .ofInt k
  | none => match readFloat? cs with
    | some x => .ofFloat x
    | none => .null

def toNumber : Value → Result
  | .null => .ok .null
  | .number n => .ok (.number n)
  | .string s => .ok (numberOfText s)
  | _ => .error (.badArgument "to_number" "expected a number or string")

/-- Whether a list contains another one as a run of neighbours. -/
def containsRun (run : List Char) : List Char → Bool
  | [] => run.isEmpty
  | c :: cs => run.isPrefixOf (c :: cs) || containsRun run cs

def contains : Value → Value → Result
  | .null, _ => .ok .null
  | .array vs, w => .ok (.bool (vs.any (·.equals w)))
  | .string s, .string t => .ok (.bool (containsRun t.toList s.toList))
  | .string _, .null => .ok .null
  | _, _ => .error (.badArgument "contains" "expected an array or two strings")

/-- Applies `f` to two strings. -/
def onStrings (name : String) (f : String → String → Result) : Value → Value → Result
  | .null, _ => .ok .null
  | _, .null => .ok .null
  | .string s, .string t => f s t
  | _, _ => .error (.badArgument name "expected two strings")

def startsWith : Value → Value → Result :=
  onStrings "starts_with" fun s t => .ok (.bool (t.toList.isPrefixOf s.toList))

def endsWith : Value → Value → Result :=
  onStrings "ends_with" fun s t => .ok (.bool (t.toList.isSuffixOf s.toList))

def tokenize (r : Readers) : Value → Value → Result :=
  onStrings "tokenize" fun s t =>
    match r.pattern t false with
    | .ok p => .ok (.array ((p.split s).map .string))
    | .error message => .error (@EvalError.badPattern "tokenize" message)

/-- A function of one argument. -/
def unary (name : String) (f : Value → Result) : Function :=
  ⟨name, some 1, fun
    | [v] => f v
    | _ => .error .malformed⟩

/-- A function of two arguments. -/
def binary (name : String) (f : Value → Value → Result) : Function :=
  ⟨name, some 2, fun
    | [v, w] => f v w
    | _ => .error .malformed⟩

/-- The functions that every query can call. -/
def functions (r : Readers) : List Function :=
  [unary "abs" abs, unary "avg" avg, unary "ceil" ceil, binary "contains" contains, binary "ends_with" endsWith,
    unary "floor" floor, unary "keys" keys, unary "length" length, unary "max" max, unary "min" min,
    unary "prod" prod, binary "starts_with" startsWith, unary "sum" sum, unary "to_number" toNumber,
    binary "tokenize" (tokenize r)]

end PathQuery.Library
