import PathQuery.Query.Basic
import PathQuery.Query.Node

namespace PathQuery

/-- The nodes that a path selects. -/
structure Matches where
  nodes : List Node
  kind : Kind

/-- A function with the arguments it has been called with. -/
structure Call where
  function : Function
  arguments : List Value

/-- What an evaluation does: it calls functions, and it evaluates the path behind an occurrence of the root from its
start to its end. -/
inductive Event
  | enter (occurrence : Nat)
  | leave (occurrence : Nat)
  | call (c : Call)

def Event.call? : Event → Option Call
  | call c => some c
  | _ => none

/-- What an evaluation has found out, the matches of paths from the root by their occurrence, and what it has done;
both latest first. -/
structure Session where
  roots : List (Nat × Matches)
  events : List Event

/-- What stays the same during an evaluation: the document, and whether locations are kept. -/
structure Setting where
  doc : Value
  keep : Bool

/-- A computation that may fail and keeps its session when it does. -/
abbrev Eval := ExceptT EvalError (StateM Session)

namespace Session

def empty : Session := ⟨[], []⟩

def root? (s : Session) (occurrence : Nat) : Option Matches := s.roots.lookup occurrence

end Session

namespace Eval

def root? (occurrence : Nat) : Eval (Option Matches) := return (← get).root? occurrence

def storeRoot (occurrence : Nat) (found : Matches) : Eval Unit :=
  modify fun s => { s with roots := (occurrence, found) :: s.roots }

def record (e : Event) : Eval Unit := modify fun s => { s with events := e :: s.events }

/-- Records a call and makes it. -/
def call (f : Function) (arguments : List Value) : Eval Value := do
  record (.call ⟨f, arguments⟩)
  f.body arguments

/-- What is found from each of some nodes, in their order. -/
def collect (go : Node → Eval Matches) (ns : List Node) : Eval Matches :=
  return ⟨(← ns.mapM go).flatMap (·.nodes), .many⟩

/-- What is found from a node, if there is one; otherwise nothing, of the kind of the path that is left. -/
def goOn (go : Node → Eval Matches) (kind : Kind) : Option Node → Eval Matches
  | some n => go n
  | none => return ⟨[], kind⟩

end Eval

/-- What to do when an occurrence of the root is reached, given the evaluation of the path behind it. -/
abbrev Strategy := Nat → Eval Matches → Eval Matches

namespace Strategy

/-- Evaluates the path wherever it is reached. -/
def anew : Strategy := fun occurrence path => do
  Eval.record (.enter occurrence)
  let found ← path
  Eval.record (.leave occurrence)
  return found

/-- Evaluates the path where it is reached first; from then on its matches are known. -/
def once : Strategy := fun occurrence path => do
  match ← Eval.root? occurrence with
  | some found => return found
  | none =>
    let found ← anew occurrence path
    Eval.storeRoot occurrence found
    return found

end Strategy

namespace Matches

/-- The matches of a path as one value: of a path to at most one node this node or `null`, of any other an array. -/
def toNode (l : Location) (m : Matches) : Node :=
  match m.kind, m.nodes with
  | .single, [] => ⟨l, .null, true⟩
  | .single, [n] => ⟨l, n.value, n.computed⟩
  | _, ns => ⟨l, .array (ns.map (·.value)), true⟩

/-- Whether a filter accepts: there is a match, and it is not falsy if it is the only one. -/
def holds (m : Matches) : Bool :=
  match m.nodes with
  | [] => false
  | [n] => !n.value.isFalsy
  | _ => true

end Matches

/-- A value on the stack of a program. -/
inductive Operand
  | node (n : Node)
  | found (m : Matches)

namespace Operand

/-- The operand as one node; the matches of a path are collected at the location of the current node. -/
def toNode (l : Location) : Operand → Node
  | node n => n
  | found m => m.toNode l

def toMatches : Operand → Matches
  | node n => ⟨[n], .single⟩
  | found m => m

end Operand

/-- The result of a binary operator. `and` and `or` give back one of their operands. -/
def BinaryOp.applyNode (current v w : Node) (op : BinaryOp) : Node :=
  match op.keepsLeft? v.value with
  | some left => { (if left then v else w) with location := current.location }
  | none => current.compute (op.apply v.value w.value)

/-- The result of a program: the top of its stack. -/
def Operand.result : List Operand → Eval Matches
  | top :: _ => return top.toMatches
  | [] => throw .malformed

mutual

/-- The nodes that a selector leads to, each followed by the rest of its path, whose kind is given. -/
def follow (t : Strategy) (s : Setting) : Selector → (Node → Eval Matches) → Kind → Node → Eval Matches
  | .root occurrence, go, _, _ => t occurrence (go (.root s.doc))
  | .current, go, _, n => go n
  | .member name, go, kind, n => Eval.goOn go kind (n.named? s.keep name)
  | .index i, go, kind, n => Eval.goOn go kind (n.at? s.keep i)
  | .wildcard, go, _, n => Eval.collect go (n.children s.keep)
  | .descend, go, _, n => Eval.collect go (n.containers s.keep)
  | .slice range, go, _, n => Eval.collect go (n.sliced s.keep range)
  | .union branches, go, _, n => return ⟨← selectBranches t s branches n go, .many⟩
  | .filter test, go, _, n =>
    Eval.collect (fun n => do
      if (← Operand.result (← run t s test n [])).holds then go n else return ⟨[], .single⟩) (n.candidates s.keep)
  | .computed key, go, kind, n => do
    match (← Operand.result (← run t s key n [])).nodes with
    | [k] => Eval.goOn go kind (n.keyed? s.keep k.value)
    | _ => return ⟨[], kind⟩
  | .call f arguments, go, _, n => do
    go (n.compute (← Eval.call f (← runArguments t s arguments n)))

/-- The nodes that a chain of selectors leads to. -/
def select (t : Strategy) (s : Setting) : List Selector → Node → Eval Matches
  | [], n => return ⟨[n], .single⟩
  | x :: path, n => follow t s x (select t s path) (.ofPath path) n

/-- The nodes of the branches of a bracket list, one branch after the other, each followed by the rest of the path. -/
def selectBranches (t : Strategy) (s : Setting) : List (List Instr) → Node → (Node → Eval Matches) → Eval (List Node)
  | [], _, _ => return []
  | branch :: branches, n, go => do
    let found ← Eval.collect go (← Operand.result (← run t s branch n [])).nodes
    return found.nodes ++ (← selectBranches t s branches n go)

def runArguments (t : Strategy) (s : Setting) : List (List Instr) → Node → Eval (List Value)
  | [], _ => return []
  | argument :: arguments, n => do
    let found ← Operand.result (← run t s argument n [])
    return (found.toNode n.location).value :: (← runArguments t s arguments n)

/-- Executes an instruction at a current node on a stack, the top of which comes first. -/
def execute (t : Strategy) (s : Setting) : Instr → Node → List Operand → Eval (List Operand)
  | .root, _, stack => return .node (.root s.doc) :: stack
  | .current, n, stack => return .node n :: stack
  | .literal v, n, stack => return .node ⟨n.location, v, false⟩ :: stack
  | .path path, n, top :: stack => return .found (← select t s path (top.toNode n.location)) :: stack
  | .unary op, n, top :: stack => return .node (n.compute (op.apply (top.toNode n.location).value)) :: stack
  | .binary op, n, right :: left :: stack =>
    return .node (op.applyNode n (left.toNode n.location) (right.toNode n.location)) :: stack
  | _, _, _ => throw .malformed

def run (t : Strategy) (s : Setting) : List Instr → Node → List Operand → Eval (List Operand)
  | [], _, stack => return stack
  | i :: is, n, stack => do run t s is n (← execute t s i n stack)

end

/-- Runs a program at a node of a document. -/
def evaluate (t : Strategy) (s : Setting) (p : Program) (n : Node) : Eval Matches := do
  Operand.result (← run t s p n [])

end PathQuery
