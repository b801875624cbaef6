import PathQuery.Proofs.Except
import PathQuery.Query.Assembly

namespace PathQuery

/-- Items that make a program are its instructions. -/
theorem Item.mapM_instr? {items : List Item} {p : Program} (h : items.mapM instr? = some p) :
    items = p.map .instr := by
  induction items generalizing p with
  | nil =>
    cases h
    rfl
  | cons i items ih =>
    cases i with
    | mark m => simp [instr?] at h
    | instr i =>
      have hb : (items.mapM instr?).bind (fun q => some (i :: q)) = some p := by
        simpa [instr?] using h
      obtain ⟨q, hq, he⟩ := Option.bind_eq_some_iff.1 hb
      cases he
      rw [ih hq, List.map_cons]

theorem Program.ofItems_cases {items : List Item} {p : Program} (h : Program.ofItems items = .ok p) :
    items = p.map .instr ∧ Program.height? 0 p = some 1 := by
  unfold ofItems at h
  split at h
  · cases h
  · next q hq =>
    split at h
    · next hh =>
      cases h
      exact ⟨Item.mapM_instr? hq, hh⟩
    · cases h

namespace Assembly

/-- Operators as items that are latest first; the first operator is settled first. -/
def settledItems (ops : List Operator) : List Item := (ops.map fun op => Item.instr op.instr).reverse

@[simp] theorem settledItems_nil : settledItems [] = [] := rfl

@[simp] theorem settledItems_cons (op : Operator) (ops : List Operator) :
    settledItems (op :: ops) = settledItems ops ++ [.instr op.instr] := by
  simp [settledItems]

theorem settle_eq (op : Operator) (items : List Item) (pending : List Pending) :
    ∃ ops rest, pending = ops.map .operator ++ rest ∧
      settle op items pending = ⟨settledItems ops ++ items, rest⟩ := by
  induction items, pending using settle.induct op with
  | case1 items top pending h ih =>
    obtain ⟨ops, rest, rfl, he⟩ := ih
    refine ⟨top :: ops, rest, by simp, ?_⟩
    rw [settle, if_pos h, he]
    simp
  | case2 items top pending h => exact ⟨[], .operator top :: pending, rfl, by simp [settle, h]⟩
  | case3 items pending h =>
    refine ⟨[], pending, rfl, ?_⟩
    rw [settle]
    · rfl
    · simpa using h

theorem settled_eq (a : Assembly) :
    ∃ ops rest, a.pending = ops.map .operator ++ rest ∧ a.settled = ⟨settledItems ops ++ a.items, rest⟩ := by
  unfold settled
  induction a.items, a.pending using settleAll.induct with
  | case1 items op pending ih =>
    obtain ⟨ops, rest, rfl, he⟩ := ih
    refine ⟨op :: ops, rest, by simp, ?_⟩
    rw [settleAll, he]
    simp
  | case2 items pending h =>
    refine ⟨[], pending, rfl, ?_⟩
    rw [settleAll]
    · rfl
    · simpa using h

variable {a b : Assembly}

theorem settled_cases {items : List Item} {pending : List Pending} (h : a.settled = ⟨items, pending⟩) :
    ∃ ops, a.pending = ops.map .operator ++ pending ∧ items = settledItems ops ++ a.items := by
  obtain ⟨ops, rest, hp, hs⟩ := settled_eq a
  rw [h] at hs
  cases hs
  exact ⟨ops, hp, rfl⟩

theorem closeGroup_cases (h : a.closeGroup = .ok b) :
    ∃ ops, a.pending = ops.map .operator ++ .group :: b.pending ∧ b.items = settledItems ops ++ a.items := by
  unfold closeGroup at h
  split at h
  · next hs =>
    cases h
    exact settled_cases hs
  · cases h

/-- Operators that wait on top do not matter for whether a group is open. -/
theorem hasOpenGroup_operators (ops : List Operator) (pending : List Pending) :
    hasOpenGroup.go (ops.map .operator ++ pending) = hasOpenGroup.go pending := by
  induction ops with
  | nil => rfl
  | cons op ops ih => exact ih

/-- Where a group can be closed one is open. -/
theorem hasOpenGroup_of_closeGroup (h : a.closeGroup = .ok b) : a.hasOpenGroup = true := by
  obtain ⟨ops, hp, -⟩ := closeGroup_cases h
  rw [hasOpenGroup, hp, hasOpenGroup_operators]
  rfl

theorem settleScope_cases (h : a.settleScope = .ok b) :
    ∃ ops rest, a.pending = ops.map .operator ++ .scope :: rest ∧
      b = ⟨settledItems ops ++ a.items, .scope :: rest⟩ := by
  unfold settleScope at h
  split at h
  · next hs =>
    cases h
    obtain ⟨ops, hp, rfl⟩ := settled_cases hs
    exact ⟨ops, _, hp, rfl⟩
  · cases h

theorem closeScope_cases (h : a.closeScope = .ok b) :
    ∃ ops, a.pending = ops.map .operator ++ .scope :: b.pending ∧ b.items = settledItems ops ++ a.items := by
  unfold closeScope at h
  split at h
  · next hs =>
    cases h
    exact settled_cases hs
  · cases h

theorem finish_cases {p : Program} (h : a.finish = .ok p) :
    ∃ ops, a.pending = ops.map .operator ∧ Program.ofItems (settledItems ops ++ a.items).reverse = .ok p := by
  unfold finish at h
  split at h
  · next hs =>
    obtain ⟨ops, hp, rfl⟩ := settled_cases hs
    exact ⟨ops, by simpa using hp, h⟩
  · cases h

theorem takeTo_cases {isMark : Item → Bool} {m : Item} {items : List Item}
    (h : a.takeTo isMark = .ok (m, items, b)) :
    a.items = items.reverse ++ m :: b.items ∧ isMark m = true ∧ (∀ i ∈ items, isMark i = false) ∧
      b.pending = a.pending := by
  unfold takeTo at h
  split at h
  · next i rest hd =>
    cases h
    refine ⟨?_, ?_, ?_, rfl⟩
    · rw [List.reverse_reverse, ← hd, List.takeWhile_append_dropWhile]
    · have hm := List.head?_dropWhile_not (!isMark ·) a.items
      simpa [hd] using hm
    · intro i hi
      simpa using List.all_eq_true.1 List.all_takeWhile i (List.mem_reverse.1 hi)
  · cases h

theorem takeTo_append {isMark : Item → Bool} {items rest : List Item} {m : Item} {pending : List Pending}
    (hi : ∀ i ∈ items, isMark i = false) (hm : isMark m = true) :
    takeTo isMark ⟨items ++ m :: rest, pending⟩ = .ok (m, items.reverse, ⟨rest, pending⟩) := by
  have hn : ∀ i ∈ items, (!isMark i) = true := by
    intro i h
    simp [hi i h]
  have hd : (items ++ m :: rest).dropWhile (!isMark ·) = m :: rest := by
    rw [List.dropWhile_append_of_pos hn, List.dropWhile_cons_of_neg (by simp [hm])]
  have ht : (items ++ m :: rest).takeWhile (!isMark ·) = items := by
    rw [List.takeWhile_append_of_pos hn, List.takeWhile_cons_of_neg (by simp [hm]), List.append_nil]
  simp only [takeTo, hd, ht]

/-- A part between separators stands in the list as it is. -/
theorem splitItems_part (isBorder : Item → Bool) (items : List Item) :
    (∀ part parts, splitItems isBorder items = part :: parts → ∃ behind, items = part ++ behind) ∧
      ∀ part ∈ splitItems isBorder items, ∃ before behind, items = before ++ part ++ behind := by
  induction items with
  | nil =>
    constructor
    · intro part parts h
      cases h
      exact ⟨[], rfl⟩
    · intro part h
      obtain rfl : part = [] := by simpa [splitItems] using h
      exact ⟨[], [], rfl⟩
  | cons i items ih =>
    obtain ⟨hfirst, hall⟩ := ih
    rw [splitItems]
    split
    · constructor
      · intro part parts h
        cases h
        exact ⟨i :: items, rfl⟩
      · intro part h
        rcases List.mem_cons.1 h with rfl | h
        · exact ⟨[], i :: items, rfl⟩
        · obtain ⟨before, behind, he⟩ := hall part h
          exact ⟨i :: before, behind, by rw [he]; rfl⟩
    · split
      · constructor
        · intro part parts h
          cases h
          exact ⟨items, rfl⟩
        · intro part h
          obtain rfl : part = [i] := by simpa using h
          exact ⟨[], items, rfl⟩
      · next first others hs =>
        obtain ⟨rest, hrest⟩ := hfirst first others hs
        constructor
        · intro part parts h
          cases h
          exact ⟨rest, by rw [hrest]; rfl⟩
        · intro part h
          rcases List.mem_cons.1 h with rfl | h
          · exact ⟨[], rest, by rw [hrest]; rfl⟩
          · obtain ⟨before, behind, he⟩ := hall part (by rw [hs]; exact List.mem_cons_of_mem _ h)
            exact ⟨i :: before, behind, by rw [he]; rfl⟩

section expressions

variable {isMark : Item → Bool} {selector : Program → Selector}

/-- A filter or computed key takes the items back to its mark. -/
theorem closeExpression_cases (h : a.closeExpression isMark selector = .ok b) :
    ∃ c m items d p, a.closeScope = .ok c ∧ c.takeTo isMark = .ok (m, items, d) ∧
      Program.ofItems items = .ok p ∧ b = d.pushSelector (selector p) := by
  obtain ⟨c, hc, h⟩ := bind_eq_ok h
  obtain ⟨⟨m, items, d⟩, hd, h⟩ := bind_eq_ok h
  obtain ⟨p, hp, h⟩ := bind_eq_ok h
  cases h
  exact ⟨c, m, items, d, p, hc, hd, hp, rfl⟩

theorem closeExpression_of_taken {c d : Assembly} {m : Item} {items : List Item} {p : Program}
    (hc : a.closeScope = .ok c) (hd : c.takeTo isMark = .ok (m, items, d)) (hp : Program.ofItems items = .ok p) :
    a.closeExpression isMark selector = .ok (d.pushSelector (selector p)) := by
  simp only [closeExpression, hc, hd, hp, bind, Except.bind]
  rfl

end expressions

theorem closeArgument_cases (h : a.closeArgument = .ok b) :
    ∃ c, a.settleScope = .ok c ∧ b = c.pushMark .argument := by
  obtain ⟨c, hc, h⟩ := map_eq_ok h
  exact ⟨c, hc, h.symm⟩

theorem closeLastArgument_cases (h : a.closeLastArgument = .ok b) : b = a ∨ a.closeArgument = .ok b := by
  unfold closeLastArgument at h
  split at h
  · cases h
    exact .inl rfl
  · exact .inr h

theorem closeCall_cases (h : a.closeCall = .ok b) :
    ∃ c d m items e f arguments, a.closeLastArgument = .ok c ∧ c.closeScope = .ok d ∧
      d.takeTo Item.isCall = .ok (m, items, e) ∧ argumentsOf items = .ok arguments ∧
      b = e.pushSelector (.call f arguments) := by
  obtain ⟨c, hc, h⟩ := bind_eq_ok h
  obtain ⟨d, hd, h⟩ := bind_eq_ok h
  obtain ⟨⟨m, items, e⟩, he, h⟩ := bind_eq_ok h
  cases m with
  | instr i => cases h
  | mark m =>
    cases m with
    | call f =>
      obtain ⟨arguments, ha, h⟩ := bind_eq_ok h
      split at h
      · cases h
        exact ⟨c, d, _, items, e, f, arguments, hc, hd, he, ha, rfl⟩
      · cases h
    | _ => cases h

/-- A bracket list takes the items back to its mark, and goes on with the path it follows or becomes a union. -/
theorem closeUnion_cases (h : a.closeUnion = .ok b) :
    ∃ m items c, a.takeTo Item.isUnion = .ok (m, items, c) ∧
      ((∃ steps, items = [.instr (.path steps)] ∧ b = c.pushPath steps) ∨
        ∃ branches, (splitItems Item.isSeparator items).mapM branchOf = .ok branches ∧
          b = c.pushSelector (.union branches)) := by
  obtain ⟨⟨m, items, c⟩, hc, h⟩ := bind_eq_ok h
  refine ⟨m, items, c, hc, ?_⟩
  dsimp only at h
  split at h
  · next steps =>
    cases h
    exact .inl ⟨steps, rfl, rfl⟩
  · obtain ⟨branches, hb, h⟩ := bind_eq_ok h
    cases h
    exact .inr ⟨branches, hb, rfl⟩

end Assembly

end PathQuery
