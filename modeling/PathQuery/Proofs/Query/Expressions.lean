import Mathlib.Data.List.Forall2
import PathQuery.Proofs.Query.Compiling
import PathQuery.Standard

namespace PathQuery

mutual

/-- The programs of the filters, computed keys and arguments of a selector, in the order of the text. -/
def Selector.inner : Selector → List Program
  | .union branches => branchesInner branches
  | .filter test => test :: programInner test
  | .computed key => key :: programInner key
  | .call _ arguments => argumentsInner arguments
  | _ => []

def pathInner : List Selector → List Program
  | [] => []
  | s :: path => s.inner ++ pathInner path

def branchesInner : List (List Instr) → List Program
  | [] => []
  | p :: ps => programInner p ++ branchesInner ps

def argumentsInner : List (List Instr) → List Program
  | [] => []
  | p :: ps => p :: (programInner p ++ argumentsInner ps)

def Instr.inner : Instr → List Program
  | .path steps => pathInner steps
  | _ => []

def programInner : List Instr → List Program
  | [] => []
  | i :: is => i.inner ++ programInner is

end

theorem pathInner_append (path steps : List Selector) :
    pathInner (path ++ steps) = pathInner path ++ pathInner steps := by
  induction path with
  | nil => rfl
  | cons s path ih => simp [pathInner, ih]

theorem programInner_append (p q : Program) : programInner (p ++ q) = programInner p ++ programInner q := by
  induction p with
  | nil => rfl
  | cons i p ih => simp [programInner, ih]

theorem Operator.inner_instr (op : Operator) : op.instr.inner = [] := by
  cases op <;> rfl

namespace Syntax

variable {env : Env}

/-- An expression as it is written, behind so many occurrences of the root. -/
structure Expression (env : Env) where
  roots : Nat
  phrase : Phrase env (Primary env)

/-- The expression with what its operands stand for. -/
def Expression.atoms (e : Expression env) : Phrase env Atom := phraseAtoms e.roots e.phrase

mutual

/-- The expressions in a step, in the order of the text. -/
def Segment.expressions (k : Nat) : Segment env → List (Expression env)
  | .deepList first others => first.expressions k ++ othersExpressions (k + first.roots) others
  | .list first others => first.expressions k ++ othersExpressions (k + first.roots) others
  | _ => []

def pathExpressions (k : Nat) : List (Segment env) → List (Expression env)
  | [] => []
  | s :: path => s.expressions k ++ pathExpressions (k + s.roots) path

def Element.expressions (k : Nat) : Element env → List (Expression env)
  | .member _ path => pathExpressions k path
  | .wildcard path => pathExpressions k path
  | .index _ => []
  | .slice _ => []
  | .filter test => ⟨k, test⟩ :: phraseExpressions k test
  | .computed key tail =>
    ⟨k, .group key tail⟩ :: (phraseExpressions k key ++ tailExpressions (k + phraseRoots key) tail)
  | .root path => pathExpressions (k + 1) path
  | .current path => pathExpressions k path

def othersExpressions (k : Nat) : List (Element env) → List (Expression env)
  | [] => []
  | e :: others => e.expressions k ++ othersExpressions (k + e.roots) others

def Primary.expressions (k : Nat) : Primary env → List (Expression env)
  | .root path => pathExpressions (k + 1) path
  | .current path => pathExpressions k path
  | .call _ arguments _ path => arguments.expressions k ++ pathExpressions (k + arguments.roots) path
  | .literal _ => []

def phraseExpressions (k : Nat) : Phrase env (Primary env) → List (Expression env)
  | .prefixed _ rest => phraseExpressions k rest
  | .operand a tail => a.expressions k ++ tailExpressions (k + a.roots) tail
  | .group inner tail => phraseExpressions k inner ++ tailExpressions (k + phraseRoots inner) tail

def tailExpressions (k : Nat) : Tail env (Primary env) → List (Expression env)
  | .done => []
  | .likes _ rest => tailExpressions k rest
  | .binary _ rest => phraseExpressions k rest

def Arguments.expressions (k : Nat) {count : Nat} : Arguments env count → List (Expression env)
  | .nil => []
  | .cons first others => ⟨k, first⟩ :: (phraseExpressions k first ++ others.expressions (k + phraseRoots first))

end

/-- All filters, computed keys and arguments of a query, in the order of the text. -/
def Source.expressions (q : Source env) : List (Expression env) := q.primary.expressions 0

/-- The programs of expressions: the post-orders of their trees. -/
def posts (es : List (Expression env)) : List Program := es.map fun e => e.atoms.tree.post

@[simp] theorem posts_nil : posts ([] : List (Expression env)) = [] := rfl

@[simp] theorem posts_cons (e : Expression env) (es : List (Expression env)) :
    posts (e :: es) = e.atoms.tree.post :: posts es := rfl

@[simp] theorem posts_append (es others : List (Expression env)) : posts (es ++ others) = posts es ++ posts others :=
  List.map_append

/-- The operands of an expression stand in the program of its tree in the order of the text. -/
theorem programInner_post (t : Tree env Atom) :
    programInner t.post = t.operands.flatMap fun a => programInner a.program := by
  induction t with
  | operand a => simp [Tree.post, Tree.operands]
  | group t ih => exact ih
  | prefixed op t ih =>
    simp [Tree.post, Tree.operands, programInner_append, ih, programInner, Operator.inner_instr]
  | likes r t ih =>
    simp [Tree.post, Tree.operands, programInner_append, ih, programInner, Operator.inner_instr]
  | binary op l r ihl ihr =>
    simp [Tree.post, Tree.operands, programInner_append, ihl, ihr, programInner, Instr.inner]

theorem programInner_tree (p : Phrase env Atom) :
    programInner p.tree.post = p.operands.flatMap fun a => programInner a.program := by
  rw [programInner_post, p.operands_tree]

theorem Branch.programInner_program (b : Branch) : programInner b.program = pathInner b.path := by
  obtain ⟨anchor, path⟩ := b
  cases anchor with
  | none => simp [program, programInner, Instr.inner, Anchor.instr]
  | some anchor => cases anchor <;> simp [program, programInner, Instr.inner, Anchor.instr]

theorem branchesInner_programs (bs : List Branch) :
    branchesInner (bs.map Branch.program) = bs.flatMap fun b => pathInner b.path := by
  induction bs with
  | nil => rfl
  | cons b bs ih => simp [branchesInner, ih, b.programInner_program]

theorem pathInner_bracketSelectors (first : Branch) (others : List Branch) :
    pathInner (bracketSelectors first others) = pathInner first.path ++ others.flatMap fun b => pathInner b.path := by
  unfold bracketSelectors
  split
  · simp
  · have hall := branchesInner_programs (first :: others)
    simpa [pathInner, Selector.inner] using hall

mutual

theorem Segment.inner_selectors : ∀ (s : Segment env) (k : Nat), pathInner (s.selectors k) = posts (s.expressions k)
  | .member n, k => by simp [Segment.selectors, Segment.expressions, pathInner, Selector.inner]
  | .wildcard, k => by simp [Segment.selectors, Segment.expressions, pathInner, Selector.inner]
  | .deepMember n, k => by simp [Segment.selectors, Segment.expressions, pathInner, Selector.inner]
  | .deepWildcard, k => by simp [Segment.selectors, Segment.expressions, pathInner, Selector.inner]
  | .deepList first others, k => by
    simp [Segment.selectors, Segment.expressions, pathInner, Selector.inner, pathInner_bracketSelectors,
      first.inner_branch k, inner_othersBranches others]
  | .list first others, k => by
    simp [Segment.selectors, Segment.expressions, pathInner_bracketSelectors, first.inner_branch k,
      inner_othersBranches others]

theorem inner_pathSelectors : ∀ (path : List (Segment env)) (k : Nat),
    pathInner (pathSelectors k path) = posts (pathExpressions k path)
  | [], k => rfl
  | s :: path, k => by
    simp [pathSelectors, pathExpressions, pathInner_append, s.inner_selectors k, inner_pathSelectors path]

theorem Element.inner_branch : ∀ (e : Element env) (k : Nat), pathInner (e.branch k).path = posts (e.expressions k)
  | .member n path, k => by
    simp [Element.branch, Element.expressions, pathInner, Selector.inner, inner_pathSelectors path k]
  | .wildcard path, k => by
    simp [Element.branch, Element.expressions, pathInner, Selector.inner, inner_pathSelectors path k]
  | .index i, k => rfl
  | .slice s, k => rfl
  | .filter test, k => by
    simp [Element.branch, Element.expressions, pathInner, Selector.inner, programInner_tree, inner_phraseAtoms test k,
      Expression.atoms]
  | .computed key tail, k => by
    simp [Element.branch, Element.expressions, pathInner, Selector.inner, programInner_tree, Phrase.operands,
      inner_phraseAtoms key k, inner_tailAtoms tail, Expression.atoms, phraseAtoms]
  | .root path, k => by
    simp [Element.branch, Element.expressions, pathInner, Selector.inner, inner_pathSelectors path]
  | .current path, k => by
    simp [Element.branch, Element.expressions, pathInner, Selector.inner, inner_pathSelectors path k]

theorem inner_othersBranches : ∀ (others : List (Element env)) (k : Nat),
    ((othersBranches k others).flatMap fun b => pathInner b.path) = posts (othersExpressions k others)
  | [], k => rfl
  | e :: others, k => by
    simp [othersBranches, othersExpressions, e.inner_branch k, inner_othersBranches others]

theorem Primary.inner_atom : ∀ (q : Primary env) (k : Nat),
    programInner (q.atom k).program = posts (q.expressions k)
  | .root path, k => by
    simp [Primary.atom, Primary.expressions, Atom.program, programInner, Instr.inner, pathInner, Selector.inner,
      inner_pathSelectors path]
  | .current path, k => by
    simp [Primary.atom, Primary.expressions, Atom.program, programInner, Instr.inner, pathInner, Selector.inner,
      inner_pathSelectors path k]
  | .call f arguments h path, k => by
    simp [Primary.atom, Primary.expressions, Atom.program, programInner, Instr.inner, pathInner, Selector.inner,
      arguments.inner_programs k, inner_pathSelectors path]
  | .literal l, k => rfl

theorem inner_phraseAtoms : ∀ (p : Phrase env (Primary env)) (k : Nat),
    ((phraseAtoms k p).operands.flatMap fun a => programInner a.program) = posts (phraseExpressions k p)
  | .prefixed op rest, k => by
    simp [phraseAtoms, Phrase.operands, phraseExpressions, inner_phraseAtoms rest k]
  | .operand q tail, k => by
    simp [phraseAtoms, Phrase.operands, phraseExpressions, q.inner_atom k, inner_tailAtoms tail]
  | .group inner tail, k => by
    simp [phraseAtoms, Phrase.operands, phraseExpressions, inner_phraseAtoms inner k, inner_tailAtoms tail]

theorem inner_tailAtoms : ∀ (tail : Tail env (Primary env)) (k : Nat),
    ((tailAtoms k tail).operands.flatMap fun a => programInner a.program) = posts (tailExpressions k tail)
  | .done, k => rfl
  | .likes r rest, k => by simp [tailAtoms, Tail.operands, tailExpressions, inner_tailAtoms rest k]
  | .binary op rest, k => by simp [tailAtoms, Tail.operands, tailExpressions, inner_phraseAtoms rest k]

theorem Arguments.inner_programs : ∀ {count : Nat} (arguments : Arguments env count) (k : Nat),
    argumentsInner (arguments.programs k) = posts (arguments.expressions k)
  | _, .nil, k => rfl
  | _, .cons first others, k => by
    simp [Arguments.programs, Arguments.expressions, argumentsInner, programInner_tree, inner_phraseAtoms first k,
      others.inner_programs, Expression.atoms]

end

theorem Source.inner_program (q : Source env) : programInner q.program = posts q.expressions :=
  q.primary.inner_atom 0

/-- The only tree that is written as an expression and in which each operator takes the operands that its level gives
it. -/
structure Phrase.Parses {α : Type} (e : Phrase env α) (t : Tree env α) : Prop where
  conforms : t.Conforms
  written : t.phrase = e
  unique : ∀ u : Tree env α, u.Conforms → u.phrase = e → u = t

theorem Phrase.parses_tree {α : Type} (e : Phrase env α) : e.Parses e.tree :=
  ⟨e.tree_spec.1, e.tree_spec.2, fun _ => eq_tree⟩

/-- Running a program is evaluating a tree. -/
structure Runs (p : Program) (t : Tree env Atom) : Prop where
  /-- The program puts on a stack what the tree gives, or fails as the tree does. -/
  run : ∀ strategy s n stack, PathQuery.run strategy s p n stack = do return (← t.evaluate strategy s n) :: stack
  /-- The matches of the program are those of the tree. -/
  result : ∀ strategy s n, PathQuery.evaluate strategy s p n = do return (← t.evaluate strategy s n).toMatches
  /-- The operators are applied when the operands have been evaluated. -/
  apply : ∀ strategy s n,
    t.evaluate strategy s n = do return (← t.evaluateOperands (Atom.evaluate strategy s n)).apply n
  /-- Each operand is evaluated once, from the left to the right. -/
  once : ∀ f : Atom → Eval Operand, (do return (← t.evaluateOperands f).operands) = t.operands.mapM f

theorem runs_post (t : Tree env Atom) : Runs t.post t where
  run strategy s n stack := t.run_post strategy s n stack
  result strategy s n := t.evaluate_post strategy s n
  apply strategy s n := t.evaluate_eq strategy s n
  once f := t.operands_evaluateOperands f

/-- A program is that of an expression: the post-order of its tree, which it evaluates. -/
def Expression.Compiles (e : Expression env) (p : Program) : Prop :=
  ∃ t, e.atoms.Parses t ∧ p = t.post ∧ Runs p t

theorem compiles_posts (es : List (Expression env)) : List.Forall₂ Expression.Compiles es (posts es) := by
  induction es with
  | nil => exact .nil
  | cons e es ih => exact .cons ⟨e.atoms.tree, e.atoms.parses_tree, rfl, runs_post _⟩ ih

end Syntax

namespace Query

open Syntax

/-- The filters, computed keys and arguments of a query compile, one after the other, to the post-orders of their
trees. -/
theorem compileWith_expressions {env : Env} {q : Source env.withLibrary} {text : String}
    (h : q.IsText text) :
    ∃ p, compileWith env text = .ok ⟨p⟩ ∧ List.Forall₂ Expression.Compiles q.expressions (programInner p) := by
  refine ⟨q.program, compileWith_of_isText h, ?_⟩
  rw [q.inner_program]
  exact compiles_posts q.expressions

theorem compileWith_expressions_sample :
    ∃ p, compileWith (.standard [])
        "$..'a\\''[?!@.n == 12 || @.s =~ /x\\//i && @ != [1,\x7b\"a\":\"]\"\x7d] || @ < length($),-1:]" = .ok ⟨p⟩ ∧
      List.Forall₂ Expression.Compiles sample.expressions (programInner p) ∧
      sample.expressions.map (·.atoms.tree) = [
        .binary .or
          (.binary .or
            (.binary .eq (.prefixed .not (.operand (.current [.current, .member "n"])))
              (.operand (.literal (.ofInt 12))))
            (.binary .and (.likes samplePattern (.operand (.current [.current, .member "s"])))
              (.binary .ne (.operand (.current [.current]))
                (.operand (.literal (.array [.ofInt 1, .object [("a", .string "]")]]))))))
          (.binary .lt (.operand (.current [.current]))
            (.operand (.current [.call (Library.unary "length" Library.length) [[.root, .path [.root 1]]]]))),
        .operand (.root [.root 1])] := by
  obtain ⟨p, hp, hc⟩ := compileWith_expressions sample.isText_text
  exact ⟨p, hp, hc, rfl⟩

end Query

end PathQuery
