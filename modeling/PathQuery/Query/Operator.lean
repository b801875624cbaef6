import PathQuery.Readers

namespace PathQuery

inductive UnaryOp
  | not
  | negate
  | likes (p : Pattern)

inductive BinaryOp
  | or
  | and
  | eq
  | ne
  | lt
  | le
  | gt
  | ge
  | add
  | sub
  | mul
  | div
  deriving DecidableEq

namespace Value

/-- `null`, `false`, zero, and empty strings, arrays and objects. -/
def isFalsy : Value → Bool
  | null => true
  | bool b => !b
  | number n => n.toFloat == 0
  | string s => s.isEmpty
  | array vs => vs.isEmpty
  | object ms => ms.isEmpty

/-- The order of two numbers, as doubles, or of two strings. -/
def compare? : Value → Value → Option Ordering
  | number m, number n =>
    if m.toFloat < n.toFloat then some .lt
    else if m.toFloat == n.toFloat then some .eq
    else if n.toFloat < m.toFloat then some .gt
    else none
  | string s, string t => some (compare s t)
  | _, _ => none

/-- Whether the order of two values passes a test; `null` if they have none. -/
def ordered (test : Ordering → Bool) (v w : Value) : Value :=
  match v.compare? w with
  | some o => bool (test o)
  | none => null

/-- Arithmetic on two numbers, in integers while that is exact. -/
def arithmetic (ints : Int → Int → Int) (floats : Float → Float → Float) : Value → Value → Value
  | number m, number n =>
    let exact := do int64? (ints (← m.toInt64?) (← n.toInt64?))
    match exact with
    | some k => ofInt k
    | none => ofFloat (floats m.toFloat n.toFloat)
  | _, _ => null

/-- The quotient of two integers, if it is one. -/
def exactQuotient? (m n : Int) : Option Int :=
  if n ≠ 0 ∧ m.tmod n = 0 then int64? (m.tdiv n) else none

def divide : Value → Value → Value
  | number m, number n =>
    let exact := do exactQuotient? (← m.toInt64?) (← n.toInt64?)
    match exact with
    | some k => ofInt k
    | none => if n.toFloat == 0 then null else ofFloat (m.toFloat / n.toFloat)
  | _, _ => null

def negate : Value → Value
  | number n =>
    match n.toInt64?.bind fun k => int64? (-k) with
    | some k => ofInt k
    | none => ofFloat (-n.toFloat)
  | _ => null

end Value

namespace UnaryOp

def apply (v : Value) : UnaryOp → Value
  | not => .bool v.isFalsy
  | negate => v.negate
  | likes p => .bool (v.asString?.any p.isMatch)

end UnaryOp

namespace BinaryOp

/-- Whether the result of `and` or `or` is the left operand; other operators compute a value of their own. -/
def keepsLeft? (v : Value) : BinaryOp → Option Bool
  | and => some v.isFalsy
  | or => some (!v.isFalsy)
  | _ => none

def apply (v w : Value) : BinaryOp → Value
  | or => if v.isFalsy then w else v
  | and => if v.isFalsy then v else w
  | eq => .bool (v.equals w)
  | ne => .bool (!v.equals w)
  | lt => .ordered (· == .lt) v w
  | le => .ordered (· != .gt) v w
  | gt => .ordered (· == .gt) v w
  | ge => .ordered (· != .lt) v w
  | add => .arithmetic (· + ·) (· + ·) v w
  | sub => .arithmetic (· - ·) (· - ·) v w
  | mul => .arithmetic (· * ·) (· * ·) v w
  | div => .divide v w

end BinaryOp

/-- An operator as it is written: before its operand, behind it, or between two. -/
inductive Operator
  | unary (op : UnaryOp)
  | binary (op : BinaryOp)

namespace Operator

/-- How loosely an operator binds. -/
def looseness : Operator → Nat
  | unary .not => 1
  | unary .negate => 1
  | unary (.likes _) => 2
  | binary .mul => 3
  | binary .div => 3
  | binary .add => 4
  | binary .sub => 4
  | binary .lt => 5
  | binary .le => 5
  | binary .gt => 5
  | binary .ge => 5
  | binary .eq => 6
  | binary .ne => 6
  | binary .and => 7
  | binary .or => 8

/-- An operator written before its operand. -/
def isPrefixed : Operator → Bool
  | unary .not => true
  | unary .negate => true
  | _ => false

/-- Whether an operator takes its operands before `next`, which stands to its right. -/
def precedes (op next : Operator) : Bool :=
  op.looseness < next.looseness || (op.looseness == next.looseness && !next.isPrefixed)

end Operator

end PathQuery
