import PathQuery.Proofs.Query.Assembly
import PathQuery.Proofs.Query.Chains
import PathQuery.Proofs.Query.Moves

namespace PathQuery

mutual

/-- The programs that belong to a selector are balanced. -/
inductive Selector.Balanced : Selector → Prop
  | intro {x : Selector} (h : ∀ p ∈ x.programs, Program.Balanced p) : Selector.Balanced x

/-- A program leaves one value and never takes more values than there are, and so do the programs in its paths. -/
inductive Program.Balanced : Program → Prop
  | intro {p : Program} (hh : Program.height? 0 p = some 1)
    (hs : ∀ path, Instr.path path ∈ p → ∀ x ∈ path, Selector.Balanced x) : Program.Balanced p

end

namespace Program

/-- A program is a query, or belongs to a selector on a path that the query has. -/
inductive Has (q : Program) : Program → Prop
  | self : Has q q
  | inner {p : Program} {path : List Selector} {x : Selector} :
      HasPath q path → x ∈ path → p ∈ x.programs → Has q p

variable {q p : Program} {steps : List Selector}

theorem Has.path (h : q.Has p) (hp : .path steps ∈ p) : q.HasPath steps := by
  cases h with
  | self => exact .operand hp
  | inner ho hx hi => exact .inside ho hx hi (.operand hp)

theorem Balanced.height (h : q.Balanced) : Program.height? 0 q = some 1 := by
  cases h with
  | intro hh _ => exact hh

theorem Balanced.path (h : q.Balanced) (hp : q.HasPath steps) : ∀ x ∈ steps, x.Balanced := by
  induction hp with
  | operand hm =>
    cases h with
    | intro _ hs => exact hs _ hm
  | @inside q inner outer path x _ hx hi _ ihouter ihinner =>
    cases ihouter h x hx with
    | intro hb => exact ihinner (hb inner hi)

theorem Balanced.has (h : q.Balanced) (hp : q.Has p) : p.Balanced := by
  cases hp with
  | self => exact h
  | inner ho hx hi =>
    cases h.path ho _ hx with
    | intro hb => exact hb p hi

end Program

/-- What is on a path among the items is balanced. -/
def Item.Balanced (i : Item) : Prop := ∀ path, i = .instr (.path path) → ∀ x ∈ path, x.Balanced

theorem Item.balanced_mark (m : Mark) : (Item.mark m).Balanced := by
  intro path hp
  cases hp

theorem Item.balanced_operator (op : Operator) : (Item.instr op.instr).Balanced := by
  intro path hp
  cases op <;> cases hp

/-- Items that are balanced make a balanced program. -/
theorem Program.ofItems_balanced {items : List Item} {p : Program} (hi : ∀ i ∈ items, i.Balanced)
    (h : Program.ofItems items = .ok p) : p.Balanced := by
  obtain ⟨rfl, hh⟩ := Program.ofItems_cases h
  refine .intro hh ?_
  intro path hp
  exact hi (.instr (.path path)) (List.mem_map_of_mem hp) path rfl

theorem Selector.Simple.balanced {x : Selector} (h : x.Simple) : x.Balanced := by
  refine .intro ?_
  intro p hp
  cases h <;> cases hp

namespace Assembly

/-- All items of an assembly are balanced. -/
def Balanced (a : Assembly) : Prop := ∀ i ∈ a.items, i.Balanced

namespace Balanced

variable {a b : Assembly} {steps : List Selector} {x : Selector}

theorem push (h : a.Balanced) {i : Instr} (hi : (Item.instr i).Balanced) : (a.push i).Balanced := by
  intro j hj
  rcases List.mem_cons.1 hj with rfl | hj
  · exact hi
  · exact h j hj

theorem pushMark (h : a.Balanced) (m : Mark) : (a.pushMark m).Balanced := by
  intro j hj
  rcases List.mem_cons.1 hj with rfl | hj
  · exact Item.balanced_mark m
  · exact h j hj

theorem openScope (h : a.Balanced) (m : Mark) : (a.openScope m).Balanced := h.pushMark m

theorem pushPath (h : a.Balanced) (hs : ∀ x ∈ steps, x.Balanced) : (a.pushPath steps).Balanced := by
  obtain ⟨items, pending⟩ := a
  unfold Assembly.pushPath
  intro i hi
  split at hi
  · next path rest he =>
    dsimp only at he
    subst he
    rcases List.mem_cons.1 hi with rfl | hi
    · intro longer hl
      cases hl
      intro x hx
      rcases List.mem_append.1 hx with hx | hx
      · exact h (.instr (.path path)) List.mem_cons_self path rfl x hx
      · exact hs x hx
    · exact h i (List.mem_cons_of_mem _ hi)
  · rcases List.mem_cons.1 hi with rfl | hi
    · intro path hp
      cases hp
      exact hs
    · exact h i hi

theorem pushSelector (h : a.Balanced) (hx : x.Balanced) : (a.pushSelector x).Balanced := by
  refine h.pushPath ?_
  intro y hy
  obtain rfl : y = x := by simpa using hy
  exact hx

/-- Operators that are moved behind their operands change nothing. -/
theorem settled (h : a.Balanced) (ops : List Operator) : ∀ i ∈ settledItems ops ++ a.items, i.Balanced := by
  intro i hi
  rcases List.mem_append.1 hi with hi | hi
  · obtain ⟨op, -, rfl⟩ := List.mem_map.1 (List.mem_reverse.1 hi)
    exact Item.balanced_operator op
  · exact h i hi

theorem pushOperator (h : a.Balanced) (op : Operator) : (a.pushOperator op).Balanced := by
  obtain ⟨ops, rest, -, hs⟩ := Assembly.settle_eq op a.items a.pending
  unfold Assembly.pushOperator
  rw [hs]
  exact h.settled ops

theorem closeGroup (h : a.Balanced) (hb : a.closeGroup = .ok b) : b.Balanced := by
  obtain ⟨ops, -, hi⟩ := Assembly.closeGroup_cases hb
  rw [Balanced, hi]
  exact h.settled ops

theorem closeScope (h : a.Balanced) (hb : a.closeScope = .ok b) : b.Balanced := by
  obtain ⟨ops, -, hi⟩ := Assembly.closeScope_cases hb
  rw [Balanced, hi]
  exact h.settled ops

theorem takeTo (h : a.Balanced) {isMark : Item → Bool} {m : Item} {items : List Item}
    (hb : a.takeTo isMark = .ok (m, items, b)) : (∀ i ∈ items, i.Balanced) ∧ b.Balanced := by
  obtain ⟨hi, -⟩ := Assembly.takeTo_cases hb
  constructor
  · intro i hm
    exact h i (by simp [hi, hm])
  · intro i hm
    exact h i (by simp [hi, hm])

theorem closeExpression {isMark : Item → Bool} {selector : Program → Selector} (hs : ∀ p, (selector p).programs = [p])
    (h : a.Balanced) (hb : a.closeExpression isMark selector = .ok b) : b.Balanced := by
  obtain ⟨c, m, items, d, p, hc, hd, hp, rfl⟩ := Assembly.closeExpression_cases hb
  obtain ⟨hi, hrest⟩ := (h.closeScope hc).takeTo hd
  refine hrest.pushSelector (.intro ?_)
  intro p' hm
  obtain rfl : p' = p := by simpa [hs] using hm
  exact Program.ofItems_balanced hi hp

theorem closeArgument (h : a.Balanced) (hb : a.closeArgument = .ok b) : b.Balanced := by
  obtain ⟨c, hc, rfl⟩ := Assembly.closeArgument_cases hb
  obtain ⟨ops, rest, -, rfl⟩ := Assembly.settleScope_cases hc
  have hs : Assembly.Balanced ⟨settledItems ops ++ a.items, .scope :: rest⟩ := h.settled ops
  exact hs.pushMark .argument

/-- The parts of items between borders are balanced, however each becomes a program. -/
theorem mapM_splitItems (isBorder : Item → Bool) {items : List Item} (h : ∀ i ∈ items, i.Balanced)
    {close : List Item → Except SyntaxFault Program} {programs : List Program} {parts : List (List Item)}
    (hparts : ∀ part ∈ parts, part ∈ splitItems isBorder items)
    (hclose : ∀ part p, (∀ i ∈ part, i.Balanced) → close part = .ok p → p.Balanced)
    (hp : parts.mapM close = .ok programs) : ∀ p ∈ programs, p.Balanced := by
  intro p hm
  obtain ⟨part, hpart, hc⟩ := exists_of_mem_mapM hp hm
  obtain ⟨before, behind, he⟩ := (Assembly.splitItems_part isBorder items).2 part (hparts part hpart)
  refine hclose part p ?_ hc
  intro i hi
  exact h i (by simp [he, hi])

theorem closeCall (h : a.Balanced) (hb : a.closeCall = .ok b) : b.Balanced := by
  obtain ⟨c, d, m, items, e, f, arguments, hc, hd, he, ha, rfl⟩ := Assembly.closeCall_cases hb
  have hlast : c.Balanced := by
    rcases Assembly.closeLastArgument_cases hc with rfl | hc
    · exact h
    · exact h.closeArgument hc
  obtain ⟨hi, hrest⟩ := (hlast.closeScope hd).takeTo he
  refine hrest.pushSelector (.intro ?_)
  refine mapM_splitItems Item.isArgument hi ?_ (fun _ _ hpart hp => Program.ofItems_balanced hpart hp) ha
  intro part hpart
  split at hpart
  · exact (List.dropLast_sublist _).subset hpart
  · exact hpart

theorem branchOf {items : List Item} {p : Program} (hi : ∀ i ∈ items, i.Balanced)
    (h : Assembly.branchOf items = .ok p) : p.Balanced := by
  unfold Assembly.branchOf at h
  refine Program.ofItems_balanced ?_ h
  intro i hm
  split at hm
  · exact hi i hm
  · rcases List.mem_cons.1 hm with rfl | hm
    · intro path hp
      cases hp
    · exact hi i hm

theorem closeUnion (h : a.Balanced) (hb : a.closeUnion = .ok b) : b.Balanced := by
  obtain ⟨m, items, c, hc, hcases⟩ := Assembly.closeUnion_cases hb
  obtain ⟨hi, hrest⟩ := h.takeTo hc
  rcases hcases with ⟨steps, rfl, rfl⟩ | ⟨branches, hbr, rfl⟩
  · exact hrest.pushPath (hi (.instr (.path steps)) (by simp) steps rfl)
  · have hprograms := mapM_splitItems Item.isSeparator hi (fun _ hpart => hpart) (fun _ _ => branchOf) hbr
    exact hrest.pushSelector (.intro hprograms)

/-- No act unbalances an assembly, if the selector that it may add is balanced. -/
theorem perform (h : a.Balanced) {act : Act} {k : Nat} (hx : ∀ x, act = .selector x → x.Balanced)
    (hb : act.perform k a = .ok b) : b.Balanced := by
  have hroot : (Item.instr .root).Balanced := fun path hp => by cases hp
  have hcurrent : (Item.instr .current).Balanced := fun path hp => by cases hp
  cases act with
  | skip | openGroup =>
    cases hb
    exact h
  | root =>
    cases hb
    exact (h.push hroot).pushSelector (.intro (by simp [Selector.programs]))
  | current =>
    cases hb
    exact (h.push hcurrent).pushSelector (.intro (by simp [Selector.programs]))
  | selector x =>
    cases hb
    exact h.pushSelector (hx x rfl)
  | literal v =>
    cases hb
    exact h.push fun path hp => by cases hp
  | operator op =>
    cases hb
    exact h.pushOperator op
  | openUnion | separator =>
    cases hb
    exact h.pushMark _
  | openFilter | openComputed =>
    cases hb
    exact h.openScope _
  | openCall f =>
    cases hb
    exact (h.push hcurrent).openScope _
  | closeGroup => exact h.closeGroup hb
  | closeUnion => exact h.closeUnion hb
  | closeFilter | closeComputed => exact h.closeExpression (fun _ => by rw [Selector.programs]) hb
  | closeArgument => exact h.closeArgument hb
  | closeCall => exact h.closeCall hb

end Balanced

end Assembly

/-- A selector that the reader adds at once holds no program. -/
theorem Turn.selector_balanced {r : Role} {x : Selector} {next : List Role} (h : Turn r (.selector x) next) :
    x.Balanced := by
  cases h with
  | selector hs | bound hs => exact hs.balanced
  | descent | wildcard => exact .intro (by simp [Selector.programs])

theorem Machine.balanced_step {env : Env} {m n : Machine} (hm : m.assembly.Balanced) (h : m.step env = .ok n) :
    n.assembly.Balanced := by
  obtain ⟨r, below, act, next, -, ht, hn⟩ := step_turns h
  refine hm.perform ?_ hn.performed
  intro x hx
  subst hx
  exact ht.selector_balanced

/-- Every program in a compiled query leaves one value. -/
theorem Query.balanced {env : Env} {s : String} {q : Query} (h : Query.compileWith env s = .ok q) :
    q.program.Balanced := by
  obtain ⟨p, hp, rfl⟩ := map_eq_ok h
  have hstart : (Machine.start s.toList).assembly.Balanced := by
    intro i hi
    cases hi
  obtain ⟨m, hm, -, hf⟩ := Machine.run_ok Machine.balanced_step hstart hp
  obtain ⟨ops, -, hi⟩ := Assembly.finish_cases hf
  refine Program.ofItems_balanced ?_ hi
  intro i hmem
  exact hm.settled ops i (List.mem_reverse.1 hmem)

end PathQuery
