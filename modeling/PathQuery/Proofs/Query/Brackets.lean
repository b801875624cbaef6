import PathQuery.Proofs.Query.Layout
import PathQuery.Proofs.Query.Tokens

namespace PathQuery

namespace Pending

/-- The parentheses that are open in the innermost scope. -/
def groups : List Pending → List Bracket
  | .operator _ :: pending => groups pending
  | .group :: pending => .round :: groups pending
  | _ => []

/-- What waits behind the innermost scope. -/
def outer : List Pending → List Pending
  | [] => []
  | .scope :: pending => pending
  | _ :: pending => outer pending

end Pending

namespace Frame

/-- The brackets that are open, innermost first. -/
def brackets : List Frame → List Pending → List Bracket
  | [], _ => []
  | .list :: fs, pending => .square :: brackets fs pending
  | .call :: fs, pending => Pending.groups pending ++ .round :: brackets fs (Pending.outer pending)
  | _ :: fs, pending => Pending.groups pending ++ brackets fs (Pending.outer pending)

variable (fs : List Frame) (pending : List Pending)

@[simp] theorem brackets_list : brackets (.list :: fs) pending = .square :: brackets fs pending := rfl

@[simp] theorem brackets_call : brackets (.call :: fs) (.scope :: pending) = .round :: brackets fs pending := rfl

@[simp] theorem brackets_filter : brackets (.filter :: fs) (.scope :: pending) = brackets fs pending := rfl

@[simp] theorem brackets_computed : brackets (.computed :: fs) (.scope :: pending) = brackets fs pending := rfl

/-- An operator that waits has no bracket. -/
@[simp] theorem brackets_operator (op : Operator) : brackets fs (.operator op :: pending) = brackets fs pending := by
  induction fs with
  | nil => rfl
  | cons frame fs ih =>
    cases frame with
    | list => rw [brackets_list, brackets_list, ih]
    | _ => rfl

theorem brackets_operators (ops : List Operator) :
    brackets fs (ops.map .operator ++ pending) = brackets fs pending := by
  induction ops with
  | nil => rfl
  | cons op ops ih => exact (brackets_operator fs _ op).trans ih

/-- A group can only be open inside a construct that holds expressions. -/
theorem brackets_group (hf : ∃ frame outer, fs = frame :: outer ∧ frame ≠ .list) :
    brackets fs (.group :: pending) = .round :: brackets fs pending := by
  obtain ⟨frame, outer, rfl, hne⟩ := hf
  cases frame with
  | list => exact absurd rfl hne
  | _ => rfl

end Frame

open PathQuery.Frame

namespace Assembly

variable {a b : Assembly} {fs : List Frame} {frame : Frame}

@[simp] theorem pushPath_pending (a : Assembly) (steps : List Selector) : (a.pushPath steps).pending = a.pending := by
  unfold pushPath
  split <;> rfl

@[simp] theorem pushSelector_pending (a : Assembly) (s : Selector) : (a.pushSelector s).pending = a.pending :=
  a.pushPath_pending [s]

theorem brackets_pushOperator (a : Assembly) (op : Operator) :
    brackets fs (a.pushOperator op).pending = brackets fs a.pending := by
  obtain ⟨ops, rest, hp, hs⟩ := settle_eq op a.items a.pending
  rw [pushOperator, hs, hp, brackets_operator, brackets_operators]

theorem brackets_closeGroup (hf : ∃ frame outer, fs = frame :: outer ∧ frame ≠ .list) (h : a.closeGroup = .ok b) :
    brackets fs a.pending = .round :: brackets fs b.pending := by
  obtain ⟨ops, hp, -⟩ := closeGroup_cases h
  rw [hp, brackets_operators, brackets_group fs _ hf]

theorem pending_of_closeUnion (h : a.closeUnion = .ok b) : b.pending = a.pending := by
  obtain ⟨m, items, c, hc, hcases⟩ := closeUnion_cases h
  obtain ⟨-, -, -, hp⟩ := takeTo_cases hc
  rcases hcases with ⟨steps, -, rfl⟩ | ⟨branches, -, rfl⟩
  · rw [pushPath_pending, hp]
  · rw [pushSelector_pending, hp]

/-- Closing the scope of a construct leaves its own bracket, if it has one. -/
theorem brackets_closeScope (h : a.closeScope = .ok b) :
    brackets (frame :: fs) a.pending = brackets (frame :: fs) (.scope :: b.pending) := by
  obtain ⟨ops, hp, -⟩ := closeScope_cases h
  rw [hp, brackets_operators]

/-- A filter or computed key has no bracket of its own. -/
theorem brackets_closeExpression {isMark : Item → Bool} {selector : Program → Selector}
    (hf : ∀ ps, brackets (frame :: fs) (.scope :: ps) = brackets fs ps)
    (h : a.closeExpression isMark selector = .ok b) : brackets (frame :: fs) a.pending = brackets fs b.pending := by
  obtain ⟨c, m, items, d, p, hc, hd, -, rfl⟩ := closeExpression_cases h
  obtain ⟨-, -, -, hp⟩ := takeTo_cases hd
  rw [brackets_closeScope hc, hf, pushSelector_pending, hp]

/-- The parenthesis of a call is the innermost bracket where an argument is complete. -/
theorem brackets_closeArgument (fs : List Frame) (h : a.closeArgument = .ok b) :
    brackets (.call :: fs) b.pending = brackets (.call :: fs) a.pending ∧
      (brackets (.call :: fs) a.pending).head? = some .round := by
  obtain ⟨c, hc, rfl⟩ := closeArgument_cases h
  obtain ⟨ops, rest, hp, rfl⟩ := settleScope_cases hc
  rw [hp, brackets_operators]
  exact ⟨rfl, rfl⟩

theorem brackets_closeCall (fs : List Frame) (h : a.closeCall = .ok b) :
    brackets (.call :: fs) a.pending = .round :: brackets fs b.pending := by
  obtain ⟨c, d, m, items, e, f, arguments, hc, hd, he, -, rfl⟩ := closeCall_cases h
  obtain ⟨-, -, -, hp⟩ := takeTo_cases he
  have hlast : brackets (.call :: fs) c.pending = brackets (.call :: fs) a.pending := by
    rcases closeLastArgument_cases hc with rfl | hc
    · rfl
    · exact (brackets_closeArgument fs hc).1
  rw [← hlast, brackets_closeScope hd, brackets_call, pushSelector_pending, hp]

end Assembly

end PathQuery
