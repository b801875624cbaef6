import PathQuery.Function.Basic
import PathQuery.Query.Operator
import PathQuery.Query.Slice

namespace PathQuery

mutual

/-- One part of a path. -/
inductive Selector
  /-- The document; each occurrence in a query has a number of its own. -/
  | root (occurrence : Nat)
  | current
  | member (name : String)
  | index (i : Int)
  | wildcard
  /-- The containers at and below a node. -/
  | descend
  | slice (s : Slice)
  | union (branches : List (List Instr))
  | filter (test : List Instr)
  /-- The child whose name or index is computed. -/
  | computed (key : List Instr)
  | call (f : Function) (arguments : List (List Instr))

/-- An instruction for a stack of values. -/
inductive Instr
  | root
  | current
  | literal (v : Value)
  /-- Replaces the value on top by what a path from it selects. -/
  | path (steps : List Selector)
  | unary (op : UnaryOp)
  | binary (op : BinaryOp)

end

/-- Instructions that leave one value on the stack. -/
abbrev Program := List Instr

def Operator.instr : Operator → Instr
  | unary op => .unary op
  | binary op => .binary op

/-- Whether a path leads to at most one node or may lead to many. -/
inductive Kind
  | single
  | many
  deriving DecidableEq

def Selector.kind : Selector → Kind
  | wildcard | descend | slice _ | union _ | filter _ => .many
  | _ => .single

/-- The kind of a chain of selectors. -/
def Kind.ofPath (path : List Selector) : Kind :=
  if path.any (·.kind == .many) then .many else .single

/-- How many values an instruction takes from the stack; it leaves one. -/
def Instr.operands : Instr → Nat
  | root | current | literal _ => 0
  | path _ | unary _ => 1
  | binary _ => 2

/-- The height of the stack behind a program, if it never takes more values than there are. -/
def Program.height? : Nat → Program → Option Nat
  | n, [] => some n
  | n, i :: is => if i.operands ≤ n then height? (n - i.operands + 1) is else none

end PathQuery
