import PathQuery.Json.Members

namespace PathQuery

inductive Number
  | int (n : Int)
  | float (x : Float)

inductive Value
  | null
  | bool (b : Bool)
  | number (n : Number)
  | string (s : String)
  | array (elements : List Value)
  | object (members : List (String × Value))

/-- Whether an integer is a signed 64-bit word. -/
def fitsInt64 (n : Int) : Bool :=
  decide (-0x8000000000000000 ≤ n) && decide (n < 0x8000000000000000)

/-- Whether an integer is an unsigned 64-bit word. -/
def fitsUInt64 (n : Int) : Bool :=
  decide (0 ≤ n) && decide (n < 0x10000000000000000)

/-- An integer that is a signed 64-bit word. -/
def int64? (n : Int) : Option Int := if fitsInt64 n then some n else none

/-- The double nearest to an integer of at most 64 bits, a tie going to the even significand. -/
def nearestFloat (n : Int) : Float :=
  if n < 0 then -(UInt64.ofNat n.natAbs).toFloat else (UInt64.ofNat n.natAbs).toFloat

namespace Number

def toFloat : Number → Float
  | int n => nearestFloat n
  | float x => x

/-- The integer, if it is one of 64 bits with sign. A double is never one. -/
def toInt64? : Number → Option Int
  | int n => int64? n
  | float _ => none

/-- Same kind of number and same value; `0.0` and `-0.0` are the same double. -/
def same : Number → Number → Bool
  | int m, int n => m == n
  | float x, float y => x == y
  | _, _ => false

end Number

namespace Value

def ofInt (n : Int) : Value := number (.int n)

def ofNat (n : Nat) : Value := number (.int n)

/-- A double as a JSON value: one that is not finite has no JSON form and becomes `null`. -/
def ofFloat (x : Float) : Value :=
  if x.isFinite then number (.float x) else null

def isNull : Value → Bool
  | null => true
  | _ => false

def isBool : Value → Bool
  | bool _ => true
  | _ => false

def isNumber : Value → Bool
  | number _ => true
  | _ => false

def isString : Value → Bool
  | string _ => true
  | _ => false

def isArray : Value → Bool
  | array _ => true
  | _ => false

def isObject : Value → Bool
  | object _ => true
  | _ => false

def isContainer (v : Value) : Bool := v.isArray || v.isObject

def isScalar (v : Value) : Bool := !v.isContainer

def asBool? : Value → Option Bool
  | bool b => some b
  | _ => none

def asNumber? : Value → Option Number
  | number n => some n
  | _ => none

def asInt64? : Value → Option Int
  | number n => n.toInt64?
  | _ => none

def asFloat? : Value → Option Float
  | number n => some n.toFloat
  | _ => none

def asString? : Value → Option String
  | string s => some s
  | _ => none

/-- The elements of an array; other values have none. -/
def elements : Value → List Value
  | array vs => vs
  | _ => []

/-- The members of an object; other values have none. -/
def members : Value → Members Value
  | object ms => ms
  | _ => []

/-- How many elements or members a value has. -/
def size (v : Value) : Nat := v.elements.length + v.members.length

def element? (i : Nat) (v : Value) : Option Value := v.elements[i]?

def member? (name : String) (v : Value) : Option Value := v.members.find? name

/-- The values directly below a container, in document order. -/
def children (v : Value) : List Value := v.elements ++ v.members.map (·.2)

mutual

/-- Structural equality. The members of objects may come in any order. -/
def same : Value → Value → Bool
  | null, null => true
  | bool b, bool c => b == c
  | number m, number n => m.same n
  | string s, string t => s == t
  | array vs, array ws => sameElements vs ws
  | object ms, object ns => ms.length == ns.length && sameMembers ms ns
  | _, _ => false

def sameElements : List Value → List Value → Bool
  | [], [] => true
  | v :: vs, w :: ws => same v w && sameElements vs ws
  | _, _ => false

/-- Whether each member has its equal among others. -/
def sameMembers : List (String × Value) → List (String × Value) → Bool
  | [], _ => true
  | (name, v) :: ms, ns =>
    (match Members.find? name ns with
    | some w => same v w
    | none => false) && sameMembers ms ns

end

/-- The equality of queries: two numbers are equal as doubles, all else structurally. -/
def equals : Value → Value → Bool
  | number m, number n => m.toFloat == n.toFloat
  | v, w => same v w

/-- Overwrites or adds a member of an object; other values have no members. -/
def insertMember? (v : Value) (name : String) (child : Value) : Option Value :=
  match v with
  | object ms => some (object (Members.insert name child ms))
  | _ => none

def push? (v child : Value) : Option Value :=
  match v with
  | array vs => some (array (vs ++ [child]))
  | _ => none

/-- Removes a member; the others keep their order. -/
def eraseMember? (v : Value) (name : String) : Option Value :=
  match v with
  | object ms => if (Members.find? name ms).isSome then some (object (Members.erase name ms)) else none
  | _ => none

/-- Removes an element; those behind it move down by one. -/
def eraseElement? (v : Value) (i : Nat) : Option Value :=
  match v with
  | array vs => if i < vs.length then some (array (vs.eraseIdx i)) else none
  | _ => none

end Value

end PathQuery
