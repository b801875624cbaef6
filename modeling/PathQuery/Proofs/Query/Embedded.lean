import PathQuery.Proofs.Query.Grafted

namespace PathQuery

open Role
open Item (IsMark isMark_of)
open Syntax (Firm)

variable {f : Nat → Nat}

namespace Assembly

/-- An assembly on top of another, with other numbers for its occurrences of the root. -/
def atop (f : Nat → Nat) (base a : Assembly) : Assembly := base.under (a.items.map (Item.renumber f)) a.pending

/-- The earliest item is an instruction, so whatever is taken back or goes on with a path, something is left. -/
def Begun (a : Assembly) : Prop := ∃ i, a.items.getLast? = some (.instr i)

variable {a b base : Assembly}

theorem Begun.append {items : List Item} (h : a.Begun) (hi : b.items = items ++ a.items) : b.Begun := by
  obtain ⟨j, hj⟩ := h
  refine ⟨j, ?_⟩
  rw [hi, List.getLast?_append, hj]
  rfl

theorem Begun.cons (h : a.Begun) {i : Item} (hi : b.items = i :: a.items) : b.Begun :=
  h.append (show b.items = [i] ++ a.items from hi)

/-- An instruction is a beginning. -/
theorem begun_push (h : a.Begun ∨ a.items = []) (i : Instr) : (a.push i).Begun := by
  obtain h | h := h
  · exact h.cons rfl
  · exact ⟨i, by rw [push, h]; rfl⟩

theorem Begun.pushPath (h : a.Begun) (steps : List Selector) : (a.pushPath steps).Begun := by
  obtain ⟨items, pending⟩ := a
  obtain ⟨j, hj⟩ := h
  cases items with
  | nil => cases hj
  | cons i items =>
    have hkept : ∀ path, i = .instr (.path path) → Begun ⟨.instr (.path (path ++ steps)) :: items, pending⟩ := by
      rintro path rfl
      cases items with
      | nil => exact ⟨_, rfl⟩
      | cons k items => exact ⟨j, by simpa [List.getLast?_cons] using hj⟩
    have hcons : Begun ⟨.instr (.path steps) :: i :: items, pending⟩ :=
      Begun.cons (a := ⟨i :: items, pending⟩) ⟨j, hj⟩ rfl
    cases i with
    | mark m => exact hcons
    | instr i =>
      cases i with
      | path path => exact hkept path rfl
      | _ => exact hcons

theorem pushPath_atop (h : a.Begun ∨ base.Clear) (steps : List Selector) :
    (base.atop f a).pushPath (renumberPath f steps) = base.atop f (a.pushPath steps) := by
  obtain ⟨items, pending⟩ := a
  cases items with
  | nil =>
    obtain ⟨i, hi⟩ | hc := h
    · cases hi
    · exact pushPath_of_clear (a := base.atop f ⟨[], pending⟩) hc _
  | cons i items =>
    cases i with
    | mark m => rfl
    | instr i =>
      cases i with
      | path path =>
        show (⟨.instr (.path (renumberPath f path ++ renumberPath f steps)) :: _, _⟩ : Assembly) = _
        rw [← renumberPath_append]
        rfl
      | _ => rfl

theorem pushSelector_atop (h : a.Begun ∨ base.Clear) (x : Selector) :
    (base.atop f a).pushSelector (x.renumber f) = base.atop f (a.pushSelector x) := by
  have hp := pushPath_atop (f := f) h [x]
  rwa [renumberPath, renumberPath] at hp

theorem push_atop {i : Instr} (hi : i.renumber f = i) : (base.atop f a).push i = base.atop f (a.push i) := by
  simp [atop, under, push, Item.renumber, hi]

theorem settle_atop (hb : Firm base.pending) (op : Operator) (items : List Item) (pending : List Pending) :
    settle op (items.map (Item.renumber f) ++ base.items) (pending ++ base.pending) =
      base.atop f (settle op items pending) := by
  induction pending generalizing items with
  | nil => exact hb.rests op _
  | cons top pending ih =>
    cases top with
    | operator top =>
      rw [List.cons_append, settle, settle]
      split
      · rw [← ih, List.map_cons, Item.renumber, top.renumber_instr]
        rfl
      · rfl
    | _ => rfl

theorem pushOperator_atop (hb : Firm base.pending) (op : Operator) :
    (base.atop f a).pushOperator op = base.atop f (a.pushOperator op) := by
  have hs : settle op (base.atop f a).items (base.atop f a).pending = base.atop f (settle op a.items a.pending) :=
    settle_atop hb op a.items a.pending
  simp only [pushOperator, hs]
  rfl

theorem settleAll_of_firm {pending : List Pending} (h : Firm pending) (items : List Item) :
    settleAll items pending = ⟨items, pending⟩ := by
  cases pending with
  | nil => rfl
  | cons top pending =>
    cases top with
    | operator op => exact absurd rfl (h op pending)
    | _ => rfl

theorem settled_atop (hb : Firm base.pending) : (base.atop f a).settled = base.atop f a.settled := by
  have hall : ∀ (pending : List Pending) (items : List Item),
      settleAll (items.map (Item.renumber f) ++ base.items) (pending ++ base.pending) =
        base.atop f (settleAll items pending) := by
    intro pending
    induction pending with
    | nil => exact fun items => settleAll_of_firm hb _
    | cons top pending ih =>
      intro items
      cases top with
      | operator op =>
        rw [List.cons_append, settleAll, settleAll, ← ih, List.map_cons, Item.renumber, op.renumber_instr]
        rfl
      | _ => rfl
  exact hall a.pending a.items

theorem closeGroup_atop (hb : Firm base.pending) (h : a.closeGroup = .ok b) :
    (base.atop f a).closeGroup = .ok (base.atop f b) := by
  unfold closeGroup at h
  split at h
  · next hs =>
    cases h
    rw [closeGroup, settled_atop hb, hs]
    rfl
  · cases h

theorem settleScope_atop (hb : Firm base.pending) (h : a.settleScope = .ok b) :
    (base.atop f a).settleScope = .ok (base.atop f b) := by
  unfold settleScope at h
  split at h
  · next hs =>
    cases h
    rw [settleScope, settled_atop hb, hs]
    rfl
  · cases h

theorem closeScope_atop (hb : Firm base.pending) (h : a.closeScope = .ok b) :
    (base.atop f a).closeScope = .ok (base.atop f b) := by
  unfold closeScope at h
  split at h
  · next hs =>
    cases h
    rw [closeScope, settled_atop hb, hs]
    rfl
  · cases h

theorem closeArgument_atop (hb : Firm base.pending) (h : a.closeArgument = .ok b) :
    (base.atop f a).closeArgument = .ok (base.atop f b) := by
  obtain ⟨c, hc, rfl⟩ := closeArgument_cases h
  rw [closeArgument, settleScope_atop hb hc]
  rfl

/-- A mark that has been set in a part is found there. -/
theorem takeTo_atop {isMark : Item → Bool} (hm : IsMark isMark) {m : Item} {items : List Item}
    (h : a.takeTo isMark = .ok (m, items, b)) :
    (base.atop f a).takeTo isMark = .ok (m.renumber f, items.map (Item.renumber f), base.atop f b) := by
  obtain ⟨hi, hmark, hnone, hp⟩ := takeTo_cases h
  have hitems : (base.atop f a).items = (items.map (Item.renumber f)).reverse ++
      m.renumber f :: (b.items.map (Item.renumber f) ++ base.items) := by
    rw [atop, under, hi]
    simp
  have hpending : (base.atop f a).pending = b.pending ++ base.pending := by
    rw [atop, under, hp]
  have htake : takeTo isMark ⟨(items.map (Item.renumber f)).reverse ++ m.renumber f :: (base.atop f b).items,
      (base.atop f b).pending⟩ = .ok (m.renumber f, (items.map (Item.renumber f)).reverse.reverse, base.atop f b) :=
    takeTo_append (by simpa [hm.renumber] using hnone) (by rw [hm.renumber, hmark])
  rw [List.reverse_reverse] at htake
  rw [← htake]
  congr 1
  exact congrArg₂ Assembly.mk hitems hpending

theorem Begun.takeTo {isMark : Item → Bool} (hm : IsMark isMark) {m : Item} {items : List Item} (ha : a.Begun)
    (h : a.takeTo isMark = .ok (m, items, b)) : b.Begun := by
  obtain ⟨hi, hmark, -, -⟩ := takeTo_cases h
  obtain ⟨j, hj⟩ := ha
  rw [hi, List.getLast?_append, List.getLast?_cons] at hj
  cases hb : b.items.getLast? with
  | none =>
    -- the earliest item would be the mark
    rw [hb] at hj
    obtain rfl : m = .instr j := by simpa using hj
    rw [hm.instr] at hmark
    cases hmark
  | some k =>
    rw [hb] at hj
    obtain rfl : k = .instr j := by simpa using hj
    exact ⟨j, hb⟩

theorem Begun.closeScope (ha : a.Begun) (h : a.closeScope = .ok b) : b.Begun := by
  obtain ⟨ops, -, hi⟩ := closeScope_cases h
  exact ha.append hi

/-- A filter or computed key goes to what is around it, on top of other parts as apart from them. -/
theorem closeExpression_atop {isMark : Item → Bool} (hm : IsMark isMark) {x : Program → Selector}
    (hx : ∀ p, (x p).renumber f = x (renumberProgram f p)) (hb : Firm base.pending) (ha : a.Begun ∨ base.Clear)
    (h : a.closeExpression isMark x = .ok b) : (base.atop f a).closeExpression isMark x = .ok (base.atop f b) := by
  obtain ⟨c, m, items, d, p, hc, hd, hp, rfl⟩ := closeExpression_cases h
  have hbegun : d.Begun ∨ base.Clear := ha.imp (fun h' => (h'.closeScope hc).takeTo hm hd) id
  have hprogram : Program.ofItems (items.map (Item.renumber f)) = .ok (renumberProgram f p) := by
    rw [Program.ofItems_renumber, hp]
    rfl
  rw [closeExpression_of_taken (closeScope_atop hb hc) (takeTo_atop hm hd) hprogram, ← pushSelector_atop hbegun, hx]

/-- The latest item of a part that has any is the latest on top of other parts. -/
theorem head?_any_atop {isMark : Item → Bool} (hm : IsMark isMark) (ha : a.items ≠ []) :
    (base.atop f a).items.head?.any isMark = a.items.head?.any isMark := by
  obtain ⟨i, items, hi⟩ := List.exists_cons_of_ne_nil ha
  rw [atop, under, hi]
  exact hm.renumber f i

theorem closeLastArgument_atop (hb : Firm base.pending) (ha : a.items ≠ []) (h : a.closeLastArgument = .ok b) :
    (base.atop f a).closeLastArgument = .ok (base.atop f b) := by
  unfold closeLastArgument at h ⊢
  rw [head?_any_atop (isMark_of fun _ => rfl) ha]
  split at h
  · next hc =>
    cases h
    rw [if_pos hc]
  · next hc =>
    rw [if_neg hc]
    exact closeArgument_atop hb h

theorem mem_settledItems {ops : List Operator} {i : Item} (h : i ∈ settledItems ops) : ∃ instr, i = .instr instr := by
  simp only [settledItems, List.mem_reverse, List.mem_map] at h
  obtain ⟨op, -, rfl⟩ := h
  exact ⟨_, rfl⟩

/-- A call that is closed has its mark in the part. -/
theorem items_ne_nil_of_closeCall (h : a.closeCall = .ok b) : a.items ≠ [] := by
  intro ha
  obtain ⟨c, d, m, items, e, g, arguments, hc, hd, he, -, -⟩ := closeCall_cases h
  have hnone : ∀ i ∈ c.items, Item.isCall i = false := by
    obtain rfl | hc := closeLastArgument_cases hc
    · simp [ha]
    · obtain ⟨k, hk, rfl⟩ := closeArgument_cases hc
      obtain ⟨ops, rest, -, rfl⟩ := settleScope_cases hk
      intro i hi
      rw [pushMark, ha, List.append_nil] at hi
      rcases List.mem_cons.1 hi with rfl | hi
      · rfl
      · obtain ⟨instr, rfl⟩ := mem_settledItems hi
        rfl
  obtain ⟨ops, -, hitems⟩ := closeScope_cases hd
  obtain ⟨hi, hmark, -, -⟩ := takeTo_cases he
  have hm : m ∈ settledItems ops ++ c.items := by
    rw [← hitems, hi]
    simp
  rcases List.mem_append.1 hm with hm | hm
  · obtain ⟨instr, rfl⟩ := mem_settledItems hm
    cases hmark
  · rw [hnone m hm] at hmark
    cases hmark

/-- A call that is closed has its scope in the part. -/
theorem pending_of_closeCall (h : a.closeCall = .ok b) : .scope ∈ a.pending := by
  obtain ⟨c, d, m, items, e, g, arguments, hc, hd, -⟩ := closeCall_cases h
  obtain rfl | hc := closeLastArgument_cases hc
  · obtain ⟨ops, hp, -⟩ := closeScope_cases hd
    rw [hp]
    simp
  · obtain ⟨k, hk, rfl⟩ := closeArgument_cases hc
    obtain ⟨ops, rest, hp, -⟩ := settleScope_cases hk
    rw [hp]
    simp

theorem Begun.closeArgument (ha : a.Begun) (h : a.closeArgument = .ok b) : b.Begun := by
  obtain ⟨c, hc, rfl⟩ := closeArgument_cases h
  obtain ⟨ops, rest, -, rfl⟩ := settleScope_cases hc
  have hsettled : Begun ⟨settledItems ops ++ a.items, .scope :: rest⟩ := ha.append rfl
  exact hsettled.cons rfl

theorem Begun.closeLastArgument (ha : a.Begun) (h : a.closeLastArgument = .ok b) : b.Begun := by
  obtain rfl | h := closeLastArgument_cases h
  · exact ha
  · exact ha.closeArgument h

theorem closeCall_atop (hb : Firm base.pending) (ha : a.Begun ∨ base.Clear) (h : a.closeCall = .ok b) :
    (base.atop f a).closeCall = .ok (base.atop f b) := by
  have hne := items_ne_nil_of_closeCall h
  obtain ⟨c, hc, h⟩ := bind_eq_ok h
  obtain ⟨d, hd, h⟩ := bind_eq_ok h
  obtain ⟨⟨m, items, e⟩, he, h⟩ := bind_eq_ok h
  have hd' : d.Begun ∨ base.Clear := ha.imp (fun h' => (h'.closeLastArgument hc).closeScope hd) id
  have he' : e.Begun ∨ base.Clear := hd'.imp (fun h' => h'.takeTo (isMark_of fun _ => rfl) he) id
  cases m with
  | instr i => cases h
  | mark m =>
    cases m with
    | call g =>
      obtain ⟨arguments, harguments, h⟩ := bind_eq_ok h
      split at h
      · next haccepts =>
        cases h
        have hlength : (renumberBranches f arguments).length = arguments.length := by simp [renumberBranches_eq]
        have hmapped : argumentsOf (items.map (Item.renumber f)) = .ok (renumberBranches f arguments) := by
          rw [argumentsOf_renumber, harguments]
          rfl
        have hp := pushSelector_atop (f := f) he' (.call g arguments)
        rw [Selector.renumber] at hp
        rw [closeCall, closeLastArgument_atop hb hne hc]
        show ((base.atop f c).closeScope >>= _) = _
        rw [closeScope_atop hb hd]
        show ((base.atop f d).takeTo Item.isCall >>= _) = _
        rw [takeTo_atop (isMark_of fun _ => rfl) he]
        show (argumentsOf (items.map (Item.renumber f)) >>= _) = _
        rw [hmapped]
        show (if g.accepts (renumberBranches f arguments).length then _ else _) = _
        rw [hlength, if_pos haccepts, hp]
      · cases h
    | _ => cases h

theorem closeUnion_atop (ha : a.Begun ∨ base.Clear) (h : a.closeUnion = .ok b) :
    (base.atop f a).closeUnion = .ok (base.atop f b) := by
  obtain ⟨⟨m, items, c⟩, hc, h⟩ := bind_eq_ok h
  have hc' : c.Begun ∨ base.Clear := ha.imp (fun h' => h'.takeTo (isMark_of fun _ => rfl) hc) id
  rw [closeUnion, takeTo_atop (isMark_of fun _ => rfl) hc]
  have hunion : ∀ {d : Assembly}, ((splitItems Item.isSeparator items).mapM branchOf >>= fun ps =>
      (pure (c.pushSelector (.union ps)) : Except SyntaxFault Assembly)) = .ok d →
      ((splitItems Item.isSeparator (items.map (Item.renumber f))).mapM branchOf >>= fun ps =>
        (pure ((base.atop f c).pushSelector (.union ps)) : Except SyntaxFault Assembly)) = .ok (base.atop f d) := by
    intro d hd
    obtain ⟨ps, hps, hd⟩ := bind_eq_ok hd
    cases hd
    rw [splitItems_renumber (isMark_of fun _ => rfl), mapM_map_eq branchOf_renumber, hps]
    have hp := pushSelector_atop (f := f) hc' (.union ps)
    rw [Selector.renumber, renumberBranches_eq] at hp
    exact congrArg Except.ok hp
  -- a path that is the only branch goes on with the path around
  rcases items with _ | ⟨i, _ | ⟨j, items⟩⟩
  · exact hunion h
  · cases i with
    | mark m => exact hunion h
    | instr i =>
      cases i with
      | path steps =>
        cases h
        exact congrArg Except.ok (pushPath_atop hc' steps)
      | _ => exact hunion h
  · cases i with
    | mark m => exact hunion h
    | instr i => cases i <;> exact hunion h

end Assembly

open Assembly (begun_push push_atop pushSelector_atop)

namespace Turn

variable {r : Role} {act : Act} {next : List Role} {a b base : Assembly} {k : Nat}

/-- An act of the table does the same on top of other parts. Only an operand is read where nothing has begun. -/
theorem perform_atop (ht : Turn r act next) (hb : Firm base.pending)
    (ha : (a.Begun ∨ base.Clear) ∨ a.items = [] ∧ r = .operand) (h : act.perform k a = .ok b) :
    act.perform (f k) (base.atop f a) = .ok (base.atop f b) := by
  have hpush : ∀ i, (a.push i).Begun ∨ base.Clear := by
    intro i
    obtain (ha | hc) | ⟨hi, -⟩ := ha
    · exact .inl (ha.cons rfl)
    · exact .inr hc
    · exact .inl (begun_push (.inr hi) i)
  have hfree : r ≠ .operand → a.Begun ∨ base.Clear := fun hr => ha.resolve_right fun h => hr h.2
  cases act with
  | skip =>
    cases h
    rfl
  | root =>
    cases h
    have hp := pushSelector_atop (f := f) (hpush .root) (.root k)
    rw [Selector.renumber, ← push_atop (by rw [Instr.renumber])] at hp
    exact congrArg Except.ok hp
  | current =>
    cases h
    have hp := pushSelector_atop (f := f) (hpush .current) .current
    rw [Selector.renumber, ← push_atop (by rw [Instr.renumber])] at hp
    exact congrArg Except.ok hp
  | selector x =>
    cases h
    have hs : x.Simple := by
      cases ht with
      | selector hs => exact hs
      | bound hs => exact hs
      | descent => exact .descend
      | wildcard => exact .wildcard
    have hp := pushSelector_atop (f := f) (hfree (by cases ht <;> nofun)) x
    rw [hs.renumber] at hp
    exact congrArg Except.ok hp
  | literal v =>
    cases h
    exact congrArg Except.ok (push_atop (by rw [Instr.renumber]))
  | operator op =>
    cases h
    exact congrArg Except.ok (Assembly.pushOperator_atop hb op)
  | openGroup | openUnion | separator | openFilter | openComputed =>
    cases h
    rfl
  | closeGroup => exact Assembly.closeGroup_atop hb h
  | closeUnion => exact Assembly.closeUnion_atop (hfree (by cases ht; nofun)) h
  | closeFilter | closeComputed =>
    exact Assembly.closeExpression_atop (isMark_of fun _ => rfl) (fun p => by rw [Selector.renumber]) hb
      (hfree (by cases ht; nofun)) h
  | openCall g =>
    cases h
    rw [Act.perform, push_atop (by rw [Instr.renumber])]
    rfl
  | closeArgument => exact Assembly.closeArgument_atop hb h
  | closeCall => exact Assembly.closeCall_atop hb (hfree (by cases ht; nofun)) h

/-- What has begun stays so. An operand makes a beginning, or another operand follows. -/
theorem begun (ht : Turn r act next) (ha : a.Begun ∨ a.items = [] ∧ r = .operand) (h : act.perform k a = .ok b) :
    b.Begun ∨ b.items = [] ∧ ∃ rest, next = .operand :: rest := by
  have hpush : ∀ i, (a.push i).Begun := begun_push (ha.imp id And.left)
  have hstays : r ≠ .operand → a.Begun := fun hr => ha.resolve_right fun h => hr h.2
  have hops : ∀ {c : Assembly} {ops : List Operator}, c.items = Assembly.settledItems ops ++ a.items → r ≠ .operand →
      c.Begun := fun hc hr => (hstays hr).append hc
  cases act with
  | skip =>
    cases h
    refine ha.imp id ?_
    rintro ⟨hi, rfl⟩
    cases ht
    exact ⟨hi, [], rfl⟩
  | root | current =>
    cases h
    exact .inl ((hpush _).pushPath _)
  | selector x =>
    cases h
    exact .inl ((hstays (by cases ht <;> nofun)).pushPath _)
  | literal v =>
    cases h
    exact .inl (hpush _)
  | operator op =>
    cases h
    obtain ha | ⟨hi, rfl⟩ := ha
    · obtain ⟨ops, rest, -, hs⟩ := Assembly.settle_eq op a.items a.pending
      have hitems : (a.pushOperator op).items = Assembly.settledItems ops ++ a.items := congrArg Assembly.items hs
      exact .inl (ha.append hitems)
    · -- before an operand stands an operator that settles none of those that wait
      have hrests : Syntax.Rests op a.pending := by
        cases ht with
        | unary op hop =>
          cases op with
          | not => exact Syntax.rests_prefixOp .not a.pending
          | negate => exact Syntax.rests_prefixOp .negate a.pending
          | likes p => cases hop
      refine .inr ⟨?_, by cases ht; exact ⟨[], rfl⟩⟩
      exact (congrArg Assembly.items (hrests a.items)).trans hi
  | openGroup =>
    cases h
    refine ha.imp id ?_
    rintro ⟨hi, rfl⟩
    cases ht
    exact ⟨hi, [], rfl⟩
  | openUnion | separator | openFilter | openComputed =>
    cases h
    exact .inl ((hstays (by cases ht <;> nofun)).cons rfl)
  | closeGroup =>
    obtain ⟨ops, -, hi⟩ := Assembly.closeGroup_cases h
    exact .inl (hops hi (by cases ht; nofun))
  | closeUnion =>
    have ha := hstays (by cases ht; nofun)
    obtain ⟨m, items, c, hc, ⟨steps, -, rfl⟩ | ⟨branches, -, rfl⟩⟩ := Assembly.closeUnion_cases h
    · exact .inl ((ha.takeTo (isMark_of fun _ => rfl) hc).pushPath _)
    · exact .inl ((ha.takeTo (isMark_of fun _ => rfl) hc).pushPath _)
  | closeFilter | closeComputed =>
    have ha := hstays (by cases ht; nofun)
    obtain ⟨c, m, items, d, p, hc, hd, -, rfl⟩ := Assembly.closeExpression_cases h
    exact .inl (((ha.closeScope hc).takeTo (isMark_of fun _ => rfl) hd).pushPath _)
  | openCall g =>
    cases h
    exact .inl ((hpush .current).cons rfl)
  | closeArgument => exact .inl ((hstays (by cases ht; nofun)).closeArgument h)
  | closeCall =>
    have ha := hstays (by cases ht; nofun)
    obtain ⟨c, d, m, items, e, g, arguments, hc, hd, he, -, rfl⟩ := Assembly.closeCall_cases h
    exact .inl ((((ha.closeLastArgument hc).closeScope hd).takeTo (isMark_of fun _ => rfl) he).pushPath _)

end Turn

theorem Assembly.hasOpenGroup_atop (base a : Assembly) : (base.atop f a).hasOpenGroup = a.hasOpenGroup ∨
    (∃ ops : List Operator, a.pending = ops.map .operator) ∧ base.hasOpenGroup = true := by
  have hall : ∀ pending, hasOpenGroup.go (pending ++ base.pending) = hasOpenGroup.go pending ∨
      (∃ ops : List Operator, pending = ops.map .operator) ∧ hasOpenGroup.go base.pending = true := by
    intro pending
    induction pending with
    | nil =>
      cases hb : hasOpenGroup.go base.pending with
      | false => exact .inl hb
      | true => exact .inr ⟨⟨[], rfl⟩, rfl⟩
    | cons top pending ih =>
      cases top with
      | operator op =>
        obtain h | ⟨⟨ops, rfl⟩, h⟩ := ih
        · exact .inl h
        · exact .inr ⟨⟨op :: ops, rfl⟩, h⟩
      | group => exact .inl rfl
      | scope => exact .inl rfl
  exact hall a.pending

/-- On top of a part without an open parenthesis, one is open only in the upper part. -/
theorem Assembly.hasOpenGroup_atop_of_closed {base : Assembly} (hb : base.hasOpenGroup = false) (a : Assembly) :
    (base.atop f a).hasOpenGroup = a.hasOpenGroup := by
  obtain hsame | ⟨-, hopen⟩ := hasOpenGroup_atop (f := f) base a
  · exact hsame
  · rw [hb] at hopen
    cases hopen

namespace Machine

variable {m n k : Machine} {env : Env} {base : Assembly} {more : List Char}

/-- The part that is read has begun, or begins with the operand that comes next. -/
def Begun (m : Machine) : Prop := m.assembly.Begun ∨ m.assembly.items = [] ∧ ∃ below, m.roles = .operand :: below

theorem Begun.operand {r : Role} {below : List Role} (hm : m.Begun) (hr : m.roles = r :: below) :
    m.assembly.Begun ∨ m.assembly.items = [] ∧ r = .operand := by
  refine hm.imp id ?_
  rintro ⟨hi, below', hr'⟩
  rw [hr] at hr'
  exact ⟨hi, (List.cons.inj hr').1⟩

theorem begun_step (hm : m.Begun) (h : m.step env = .ok n) : n.Begun := by
  obtain ⟨r, below, act, next, hr, ht, htook⟩ := step_turns h
  refine (ht.begun (hm.operand hr) htook.performed).imp id ?_
  rintro ⟨hi, rest, rfl⟩
  exact ⟨hi, rest ++ below, htook.roles_eq⟩

/-- A machine in the same modes on top of other parts, before a longer text. -/
structure Atop (f : Nat → Nat) (base : Assembly) (more : List Char) (m n : Machine) : Prop where
  rest : n.rest = m.rest ++ more
  modes : n.modes = m.modes
  assembly : n.assembly = base.atop f m.assembly
  roots : n.roots = f m.roots

/-- An act on top of other parts leads on top of them. -/
theorem Atop.take (h : m.Atop f base more n) (hf : ∀ i, f (i + 1) = f i + 1) (hr : m.rest ≠ [] ∨ more = [])
    (past : Bool) (modes : List Mode) (act : Act) (a : Assembly) :
    Atop f base more { m.skip m.rest past with modes, assembly := a, roots := m.roots + act.roots }
      { n.skip n.rest past with modes, assembly := base.atop f a, roots := n.roots + act.roots } := by
  refine ⟨?_, rfl, rfl, ?_⟩
  · cases past with
    | false => exact h.rest
    | true =>
      cases hm : m.rest with
      | nil =>
        obtain rfl := hr.resolve_left fun hne => hne hm
        simp [skip, h.rest, hm]
      | cons c rest => simp [skip, h.rest, hm, Machine.past]
  · rw [h.roots]
    cases act with
    | root => exact (hf _).symm
    | _ => rfl

/-- On top of other parts a step is the same, if it does not depend on what is open there. -/
theorem Atop.step (h : m.Atop f base more n) (hf : ∀ i, f (i + 1) = f i + 1) (hb : Firm base.pending)
    (ha : m.Begun ∨ base.Clear) (hr : m.rest ≠ []) (hg : m.modes.head? = some .operator → m.rest.head? = some ')' →
      n.assembly.hasOpenGroup = m.assembly.hasOpenGroup) (hs : m.step env = .ok k) :
    ∃ k', n.step env = .ok k' ∧ k.Atop f base more k' := by
  obtain ⟨c, rest, hrest⟩ := List.exists_cons_of_ne_nil hr
  have hrest' : n.rest = c :: (rest ++ more) := by rw [h.rest, hrest, List.cons_append]
  have hm : m.modes ≠ [] := modes_ne_nil_of_step hs
  have hnext : n.rest.head? = m.rest.head? := by rw [hrest, hrest']; rfl
  obtain ⟨r, below, hroles, v, hv, hx, hy⟩ := @step_move_of m n env h.modes hnext hg hm
  rw [hx] at hs
  cases hv with
  | refuse => cases hs
  | @take past act modes next ht hmodes hc =>
    rw [makes] at hs
    split at hs
    · next a hp =>
      cases hs
      have hfree : (m.assembly.Begun ∨ base.Clear) ∨ m.assembly.items = [] ∧ r = .operand := by
        obtain ha | hc := ha
        · exact (ha.operand hroles).imp .inl id
        · exact .inl (.inr hc)
      have hp' : act.perform n.roots n.assembly = .ok (base.atop f a) := by
        rw [h.assembly, h.roots]
        exact ht.perform_atop hb hfree hp
      rw [hy, makes, hp']
      exact ⟨_, rfl, h.take hf (.inl hr) past modes act a⟩
    · cases hs

/-- A parenthesis that closes nothing ends an argument, and without a call nothing can be read behind it. -/
theorem arguments_of_step {below : List Mode} {rest : List Char} (hm : m.modes = .operator :: below)
    (hr : m.rest = ')' :: rest) {ops : List Operator} (hp : m.assembly.pending = ops.map .operator)
    (h : m.step env = .ok k) : k.modes.head? = some .arguments ∧ ∀ j, k.step env ≠ .ok j := by
  have hclosed : m.assembly.hasOpenGroup = false := by
    rw [Assembly.hasOpenGroup, hp, ← List.append_nil (ops.map _), Assembly.hasOpenGroup_operators]
    rfl
  rw [step_cons hm, stepIn, hr, readOperator] at h
  rw [if_neg (by decide), if_neg (by decide), if_neg (by decide), if_pos rfl, if_neg (by simp [hclosed])] at h
  split at h
  · next hbelow =>
    cases h
    refine ⟨hbelow, fun j hj => ?_⟩
    obtain ⟨others, rfl⟩ : ∃ others, below = .arguments :: others := by
      cases below with
      | nil => cases hbelow
      | cons mode others =>
        cases hbelow
        exact ⟨others, rfl⟩
    have hk : (m.goto (.arguments :: others)).modes = .arguments :: others := rfl
    rw [step_cons hk, stepIn, goto_rest, hr, readArguments, if_neg (by decide), if_neg (by decide), if_pos rfl] at hj
    obtain ⟨l, hl, -⟩ := map_eq_ok hj
    rw [attempt] at hl
    split at hl
    · next a ha =>
      have hscope : Pending.scope ∈ m.assembly.pending := Assembly.pending_of_closeCall ha
      rw [hp] at hscope
      obtain ⟨op, -, ho⟩ := List.mem_map.1 hscope
      cases ho
    · cases hl
  · cases h

/-- A part is read in the same way on top of other parts, to a place before which no parenthesis has ended it. -/
theorem Reaches.atop (h : Reaches env m k) (hk : k.rest ≠ []) (hend : k.modes.head? ≠ some .arguments)
    (hf : ∀ i, f (i + 1) = f i + 1) (hb : Firm base.pending) (ha : m.Begun ∨ base.Clear)
    (hatop : m.Atop f base more n) : ∃ k', Reaches env n k' ∧ k.Atop f base more k' := by
  induction h generalizing n with
  | refl m => exact ⟨n, .refl n, hatop⟩
  | @step m j k hs hreach ih =>
    have hrest : m.rest ≠ [] := by
      intro hr
      have hsuffix := (Reaches.step hs hreach).rest_suffix
      rw [hr] at hsuffix
      exact hk (List.eq_nil_of_suffix_nil hsuffix)
    have hg : m.modes.head? = some .operator → m.rest.head? = some ')' →
        n.assembly.hasOpenGroup = m.assembly.hasOpenGroup := by
      intro hoperator hparenthesis
      rw [hatop.assembly]
      obtain hsame | ⟨⟨ops, hp⟩, -⟩ := Assembly.hasOpenGroup_atop (f := f) base m.assembly
      · exact hsame
      · obtain ⟨below, hm⟩ : ∃ below, m.modes = .operator :: below := by
          cases hmodes : m.modes with
          | nil => rw [hmodes] at hoperator; cases hoperator
          | cons mode below => rw [hmodes] at hoperator; cases hoperator; exact ⟨below, rfl⟩
        obtain ⟨rest, hr⟩ : ∃ rest, m.rest = ')' :: rest := by
          obtain ⟨c, rest, hr⟩ := List.exists_cons_of_ne_nil hrest
          rw [hr] at hparenthesis
          cases hparenthesis
          exact ⟨rest, hr⟩
        obtain ⟨harguments, hstuck⟩ := arguments_of_step hm hr hp hs
        cases hreach with
        | refl => exact absurd harguments hend
        | step hj _ => exact absurd hj (hstuck _)
    obtain ⟨j', hj', hatop'⟩ := hatop.step hf hb ha hrest hg hs
    obtain ⟨k', hk', hatop''⟩ := ih hk hend (ha.imp (fun hm => begun_step hm hs) id) hatop'
    exact ⟨k', .step hj' hk', hatop''⟩

end Machine

end PathQuery
