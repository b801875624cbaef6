import Mathlib.Algebra.GroupWithZero.Nat
import PathQuery.Proofs.Query.Assembly
import PathQuery.Proofs.Query.Moves

namespace PathQuery

def Selector.bulk : Selector → Nat
  | root _ | member _ => 1
  | _ => 3

def pathBulk (steps : List Selector) : Nat := (steps.map Selector.bulk).sum

def Instr.bulk : Instr → Nat
  | root => 0
  | path steps => pathBulk steps
  | _ => 3

def Program.bulk (p : Program) : Nat := (p.map Instr.bulk).sum

namespace Item

/-- A bracket list that has been opened may yet go on with the path before it. -/
def bulk : Item → Nat
  | instr i => i.bulk
  | mark .union => 0
  | mark _ => 3

def allBulk (items : List Item) : Nat := (items.map bulk).sum

end Item

def Pending.bulk : Pending → Nat
  | operator _ => 3
  | group | scope => 0

/-- Whether something has to follow in a role. -/
def Role.bulk : Role → Nat
  | queryCall | selector | element | bound | operand => 1
  | _ => 0

theorem Selector.one_le_bulk (s : Selector) : 1 ≤ s.bulk := by
  unfold bulk
  split <;> decide

theorem Operator.bulk_instr (op : Operator) : op.instr.bulk = 3 := by
  cases op <;> rfl

theorem pathBulk_append (path steps : List Selector) : pathBulk (path ++ steps) = pathBulk path + pathBulk steps := by
  simp [pathBulk]

@[simp] theorem pathBulk_singleton (s : Selector) : pathBulk [s] = s.bulk := by simp [pathBulk]

namespace Item

@[simp] theorem allBulk_nil : allBulk [] = 0 := rfl

@[simp] theorem allBulk_cons (i : Item) (items : List Item) : allBulk (i :: items) = i.bulk + allBulk items := by
  simp [allBulk]

@[simp] theorem allBulk_append (items others : List Item) :
    allBulk (items ++ others) = allBulk items + allBulk others := by
  simp [allBulk]

@[simp] theorem allBulk_reverse (items : List Item) : allBulk items.reverse = allBulk items := by simp [allBulk]

theorem allBulk_instrs (p : Program) : allBulk (p.map instr) = p.bulk := by
  rw [allBulk, Program.bulk, List.map_map]
  rfl

end Item

namespace Assembly

def bulk (a : Assembly) : Nat := Item.allBulk a.items + (a.pending.map Pending.bulk).sum

variable {a b : Assembly}

theorem bulk_push (a : Assembly) (i : Instr) : (a.push i).bulk = a.bulk + i.bulk := by
  simp [push, bulk, Item.bulk]
  omega

theorem bulk_pushMark (a : Assembly) (m : Mark) : (a.pushMark m).bulk = a.bulk + (Item.mark m).bulk := by
  simp [pushMark, bulk]
  omega

theorem bulk_openScope (a : Assembly) (m : Mark) : (a.openScope m).bulk = a.bulk + (Item.mark m).bulk := by
  simp [openScope, bulk, Pending.bulk]
  omega

theorem bulk_openGroup (a : Assembly) : a.openGroup.bulk = a.bulk := by simp [openGroup, bulk, Pending.bulk]

theorem bulk_pushPath (a : Assembly) (steps : List Selector) : (a.pushPath steps).bulk = a.bulk + pathBulk steps := by
  unfold pushPath
  split
  · next path items h =>
    simp [bulk, h, Item.bulk, Instr.bulk, pathBulk_append]
    omega
  · simp [bulk, Item.bulk, Instr.bulk]
    omega

theorem bulk_pushSelector (a : Assembly) (s : Selector) : (a.pushSelector s).bulk = a.bulk + s.bulk := by
  rw [pushSelector, bulk_pushPath, pathBulk_singleton]

/-- An operator counts for as much behind its operands as while it waits. -/
theorem bulk_settledItems (ops : List Operator) (items : List Item) (pending : List Pending) :
    bulk ⟨settledItems ops ++ items, pending⟩ = bulk ⟨items, ops.map .operator ++ pending⟩ := by
  induction ops generalizing items with
  | nil => rfl
  | cons op ops ih =>
    have happend : settledItems (op :: ops) ++ items = settledItems ops ++ .instr op.instr :: items := by simp
    rw [happend, ih]
    simp [bulk, Item.bulk, Pending.bulk, op.bulk_instr]
    omega

theorem bulk_pushOperator (a : Assembly) (op : Operator) : (a.pushOperator op).bulk = a.bulk + 3 := by
  obtain ⟨ops, rest, hp, hs⟩ := settle_eq op a.items a.pending
  have hsettled := bulk_settledItems ops a.items rest
  rw [← hp] at hsettled
  have hbulk : (a.pushOperator op).bulk = bulk ⟨settledItems ops ++ a.items, rest⟩ + 3 := by
    simp [pushOperator, hs, bulk, Pending.bulk]
    omega
  rw [hbulk, hsettled]

theorem bulk_closeGroup (h : a.closeGroup = .ok b) : b.bulk = a.bulk := by
  obtain ⟨ops, hp, hi⟩ := closeGroup_cases h
  have hb : b = ⟨settledItems ops ++ a.items, b.pending⟩ := by rw [← hi]
  rw [hb, bulk_settledItems]
  simp [bulk, hp, Pending.bulk]

theorem bulk_closeArgument (h : a.closeArgument = .ok b) : b.bulk = a.bulk + 3 := by
  obtain ⟨c, hc, rfl⟩ := closeArgument_cases h
  obtain ⟨ops, rest, hp, rfl⟩ := settleScope_cases hc
  rw [bulk_pushMark, bulk_settledItems, ← hp]
  rfl

/-- A filter, a computed key or a call that is complete. -/
theorem three_le_bulk_pushSelector (a : Assembly) {s : Selector} (hs : s.bulk = 3) : 3 ≤ (a.pushSelector s).bulk := by
  rw [bulk_pushSelector, hs]
  exact Nat.le_add_left 3 _

theorem bulk_closeExpression {isMark : Item → Bool} {selector : Program → Selector} (hs : ∀ p, (selector p).bulk = 3)
    (h : a.closeExpression isMark selector = .ok b) : 3 ≤ b.bulk := by
  obtain ⟨-, -, -, d, p, -, -, -, rfl⟩ := closeExpression_cases h
  exact three_le_bulk_pushSelector d (hs p)

theorem bulk_closeCall (h : a.closeCall = .ok b) : 3 ≤ b.bulk := by
  obtain ⟨-, -, -, -, e, f, arguments, -, -, -, -, rfl⟩ := closeCall_cases h
  exact three_le_bulk_pushSelector e rfl

/-- A bracket list that is a path counts for as much when it goes on with the path before it. -/
theorem bulk_closeUnion (h : a.closeUnion = .ok b) : 3 ≤ b.bulk ∨ b.bulk = a.bulk := by
  obtain ⟨m, items, c, hc, ⟨steps, rfl, rfl⟩ | ⟨branches, -, rfl⟩⟩ := closeUnion_cases h
  · obtain ⟨hitems, hm, -, hpending⟩ := takeTo_cases hc
    have hmark : m.bulk = 0 := by
      cases m with
      | instr i => cases hm
      | mark m =>
        cases m with
        | union => rfl
        | _ => cases hm
    refine .inr ?_
    rw [bulk_pushPath, bulk, bulk, hitems, hpending]
    rw [Item.allBulk_append, Item.allBulk_cons, hmark]
    simp [Item.bulk, Instr.bulk]
    omega
  · exact .inl (three_le_bulk_pushSelector c rfl)

theorem bulk_finish {p : Program} (h : a.finish = .ok p) : p.bulk = a.bulk := by
  obtain ⟨ops, hp, hof⟩ := finish_cases h
  obtain ⟨hitems, -⟩ := Program.ofItems_cases hof
  have hsettled := bulk_settledItems ops a.items []
  rw [List.append_nil, ← hp] at hsettled
  have ha : a.bulk = bulk ⟨settledItems ops ++ a.items, []⟩ := hsettled.symm
  rw [← Item.allBulk_instrs, ← hitems, Item.allBulk_reverse, ha]
  rfl

end Assembly

/-- What an act adds at least. -/
def Act.bulk : Act → Nat
  | root => 1
  | selector s => s.bulk
  | current | literal _ | operator _ | separator | openFilter | openComputed | openCall _ | closeArgument => 3
  | skip | openGroup | closeGroup | openUnion | closeUnion | closeFilter | closeComputed | closeCall => 0

theorem Act.bulk_perform {act : Act} {k : Nat} {a b : Assembly} (h : act.perform k a = .ok b) :
    min 3 (a.bulk + act.bulk) ≤ b.bulk := by
  cases act with
  | closeGroup =>
    rw [Assembly.bulk_closeGroup h]
    exact Nat.min_le_right _ _
  | closeUnion =>
    obtain hb | hb := Assembly.bulk_closeUnion h
    · exact Nat.le_trans (Nat.min_le_left _ _) hb
    · rw [hb]
      exact Nat.min_le_right _ _
  | closeFilter | closeComputed =>
    exact Nat.le_trans (Nat.min_le_left _ _) (Assembly.bulk_closeExpression (fun _ => rfl) h)
  | closeCall => exact Nat.le_trans (Nat.min_le_left _ _) (Assembly.bulk_closeCall h)
  | closeArgument =>
    rw [Assembly.bulk_closeArgument h]
    exact Nat.min_le_right _ _
  | _ =>
    cases h
    simp only [Assembly.bulk_push, Assembly.bulk_pushMark, Assembly.bulk_pushSelector, Assembly.bulk_pushOperator,
      Assembly.bulk_openGroup, Assembly.bulk_openScope, bulk, Instr.bulk, Selector.bulk, Item.bulk]
    omega

/-- What some roles are bound to read. -/
def Role.allBulk (roles : List Role) : Nat := (roles.map bulk).sum

@[simp] theorem Role.allBulk_append (roles below : List Role) :
    allBulk (roles ++ below) = allBulk roles + allBulk below := by
  simp [allBulk]

/-- A role reads what it was bound to read, or leaves it to the roles that follow. -/
theorem Turn.bulk_le {r : Role} {act : Act} {next : List Role} (ht : Turn r act next) :
    r.bulk ≤ act.bulk + Role.allBulk next := by
  cases ht with
  | stay r => simp [Role.allBulk]
  | selector hs =>
    refine Nat.le_add_right_of_le ?_
    exact Selector.one_le_bulk _
  | bound hs =>
    refine Nat.le_add_right_of_le ?_
    exact Selector.one_le_bulk _
  | _ => simp [Role.bulk, Act.bulk, Role.allBulk, Selector.bulk]

namespace Machine

variable {env : Env} {m n : Machine}

/-- What has been read, and what is bound to follow. -/
def bulk (m : Machine) : Nat := m.assembly.bulk + Role.allBulk m.roles

/-- A step does not take anything back, as far as one counts to three. -/
theorem bulk_step (h : m.step env = .ok n) : min 3 m.bulk ≤ n.bulk := by
  obtain ⟨r, below, act, next, hr, ht, hn⟩ := step_turns h
  have hact := Act.bulk_perform hn.performed
  have hturn := ht.bulk_le
  have hroles : Role.allBulk (r :: below) = r.bulk + Role.allBulk below := by simp [Role.allBulk]
  rw [bulk, bulk, hr, hn.roles_eq, hroles, Role.allBulk_append]
  omega

/-- A program counts for what has been read. -/
theorem bulk_finished {p : Program} (hm : m.isFinished = true) (h : m.assembly.finish = .ok p) : p.bulk = m.bulk := by
  rw [Assembly.bulk_finish h, bulk, roles_of_isFinished hm]
  rfl

end Machine

end PathQuery
