import PathQuery.Json.Value
import PathQuery.Text.Escape

namespace PathQuery

inductive Step
  | index (i : Nat)
  | name (s : String)
  deriving DecidableEq

/-- The steps from the root, which itself has none. -/
abbrev Location := List Step

namespace Step

/-- Indices in numeric order come before names in the order of their code points. -/
def order : Step → Step → Ordering
  | index i, index j => compare i j
  | index _, name _ => .lt
  | name _, index _ => .gt
  | name s, name t => compare s t

/-- The child one step below a value. -/
def child? (v : Value) : Step → Option Value
  | index i => v.element? i
  | name s => v.member? s

def text : Step → String
  | index i => "[" ++ i.repr ++ "]"
  | name s => "[" ++ Text.quoted '\'' s ++ "]"

/-- A step as a token of a JSON pointer, where `~0` stands for `~` and `~1` for `/`. -/
def pointerToken : Step → String
  | index i => i.repr
  | name s => String.ofList (s.toList.flatMap fun c =>
      if c = '~' then ['~', '0'] else if c = '/' then ['~', '1'] else [c])

end Step

namespace Location

def root : Location := []

/-- The location one step below. -/
def child (l : Location) (s : Step) : Location := l ++ [s]

def parent? : Location → Option Location
  | [] => none
  | s :: l => some (s :: l).dropLast

def last? (l : Location) : Option Step := l.getLast?

def order : Location → Location → Ordering
  | [], [] => .eq
  | [], _ :: _ => .lt
  | _ :: _, [] => .gt
  | s :: l, t :: m => (s.order t).then (order l m)

def le (l m : Location) : Bool := (order l m).isLE

/-- The normalized path. -/
def text (l : Location) : String :=
  String.join ("$" :: l.map Step.text)

def pointer (l : Location) : String :=
  String.join (l.map fun s => "/" ++ s.pointerToken)

/-- The node at a location. -/
def get? : Location → Value → Option Value
  | [], v => some v
  | s :: l, v => (s.child? v).bind (get? l)

/-- Replaces the first member of that name by what `f` makes of it. -/
def changeMember? (f : Value → Option Value) (name : String) : Members Value → Option (Members Value)
  | [] => none
  | (n, v) :: ms =>
    if n = name then (f v).map fun w => (n, w) :: ms
    else (changeMember? f name ms).map ((n, v) :: ·)

/-- Replaces an element by what `f` makes of it. -/
def changeElement? (f : Value → Option Value) : Nat → List Value → Option (List Value)
  | _, [] => none
  | 0, v :: vs => (f v).map (· :: vs)
  | i + 1, v :: vs => (changeElement? f i vs).map (v :: ·)

/-- Replaces the node at a location by what `f` makes of it; none if there is no such node or `f` has no result. -/
def change? (f : Value → Option Value) : Location → Value → Option Value
  | [], v => f v
  | .index i :: l, .array vs => (changeElement? (change? f l) i vs).map .array
  | .name s :: l, .object ms => (changeMember? (change? f l) s ms).map .object
  | _ :: _, _ => none

/-- Overwrites the node at a location. -/
def replace? (l : Location) (new : Value) : Value → Option Value :=
  change? (fun _ => some new) l

/-- Removes the child that a step leads to. -/
def eraseChild? (v : Value) : Step → Option Value
  | .index i => v.eraseElement? i
  | .name s => v.eraseMember? s

/-- Removes the node at a location from its container. The root cannot be removed. -/
def remove? (l : Location) (doc : Value) : Option Value :=
  match l.getLast? with
  | none => none
  | some s => change? (eraseChild? · s) l.dropLast doc

end Location

end PathQuery
