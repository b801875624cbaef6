import PathQuery.Location.Basic

namespace PathQuery

namespace Step

instance : Std.TransCmp order where
  eq_swap {s t} := by
    cases s with
    | index i =>
      cases t with
      | index j =>
        show compare i j = (compare j i).swap
        exact Std.OrientedCmp.eq_swap
      | name u => rfl
    | name s =>
      cases t with
      | index j => rfl
      | name u =>
        show compare s u = (compare u s).swap
        exact Std.OrientedCmp.eq_swap
  isLE_trans {s t u} := by
    intro h₁ h₂
    cases s with
    | index i =>
      cases u with
      | name u => rfl
      | index k =>
        cases t with
        | index j =>
          show (compare i k).isLE = true
          exact Std.TransCmp.isLE_trans (b := j) h₁ h₂
        | name t => cases h₂
    | name s =>
      cases t with
      | index j => cases h₁
      | name t =>
        cases u with
        | index k => cases h₂
        | name u =>
          show (compare s u).isLE = true
          exact Std.TransCmp.isLE_trans (b := t) h₁ h₂

instance : Std.LawfulEqCmp order where
  compare_self {s} := by
    cases s with
    | index i =>
      show compare i i = .eq
      exact Std.ReflCmp.compare_self
    | name s =>
      show compare s s = .eq
      exact Std.ReflCmp.compare_self
  eq_of_compare {s t} := by
    intro h
    cases s with
    | index i =>
      cases t with
      | index j =>
        have hc : compare i j = .eq := h
        rw [Std.LawfulEqCmp.eq_of_compare hc]
      | name t => cases h
    | name s =>
      cases t with
      | index j => cases h
      | name t =>
        have hc : compare s t = .eq := h
        rw [Std.LawfulEqCmp.eq_of_compare hc]

end Step

namespace Location

theorem order_eq_compareLex : order = List.compareLex Step.order := by
  funext l m
  induction l generalizing m with
  | nil =>
    cases m with
    | nil => rw [order, List.compareLex_nil_nil]
    | cons t m => rw [order, List.compareLex_nil_cons]
  | cons s l ih =>
    cases m with
    | nil => rw [order, List.compareLex_cons_nil]
    | cons t m => rw [order, List.compareLex_cons_cons, ih]

instance : Std.TransCmp order := order_eq_compareLex ▸ inferInstance

instance : Std.LawfulEqCmp order := order_eq_compareLex ▸ inferInstance

/-- A location comes strictly before another. -/
def Before (l m : Location) : Prop := order l m = .lt

variable {l m k : Location} {s t : Step}

theorem before_irrefl (l : Location) : ¬Before l l := by
  intro h
  have he : order l l = .eq := Std.ReflCmp.compare_self
  rw [Before, he] at h
  cases h

theorem Before.ne (h : Before l m) : l ≠ m := by
  intro he
  subst he
  exact before_irrefl l h

theorem Before.trans (h₁ : Before l m) (h₂ : Before m k) : Before l k := Std.TransCmp.lt_trans h₁ h₂

theorem before_or_before (h : l ≠ m) : Before l m ∨ Before m l := by
  cases ho : order l m with
  | lt => exact .inl ho
  | eq => exact absurd (Std.LawfulEqCmp.eq_of_compare ho) h
  | gt => exact .inr (Std.OrientedCmp.lt_of_gt ho)

/-- The order that sorting uses allows equal locations. -/
theorem le_iff : l.le m = true ↔ l = m ∨ Before l m := by
  unfold le
  constructor
  · intro h
    cases ho : order l m with
    | lt => exact .inr ho
    | eq => exact .inl (Std.LawfulEqCmp.eq_of_compare ho)
    | gt => simp [ho] at h
  · intro hor
    rcases hor with rfl | h
    · have he : order l l = .eq := Std.ReflCmp.compare_self
      rw [he]
      rfl
    · rw [h]
      rfl

theorem le_trans (h₁ : l.le m = true) (h₂ : m.le k = true) : l.le k = true := Std.TransCmp.isLE_trans h₁ h₂

theorem le_total (l m : Location) : (l.le m || m.le l) = true := by
  rw [Bool.or_eq_true, le_iff, le_iff]
  by_cases h : l = m
  · exact .inl (.inl h)
  · rcases before_or_before h with hb | hb
    · exact .inl (.inr hb)
    · exact .inr (.inr hb)

theorem not_before_root (l : Location) : ¬Before l root := by
  intro h
  cases l <;> cases h

theorem before_cons_cons : Before (s :: l) (t :: m) ↔ s.order t = .lt ∨ s = t ∧ Before l m := by
  unfold Before
  rw [order]
  cases ho : s.order t with
  | lt => simp
  | gt =>
    constructor
    · intro h
      cases h
    · intro hor
      rcases hor with h | ⟨rfl, -⟩
      · cases h
      · have he : s.order s = .eq := Std.ReflCmp.compare_self
        rw [he] at ho
        cases ho
  | eq =>
    have hst : s = t := Std.LawfulEqCmp.eq_of_compare ho
    constructor
    · intro h
      exact .inr ⟨hst, h⟩
    · intro hor
      rcases hor with h | ⟨-, h⟩
      · cases h
      · exact h

theorem before_cons_self : Before (s :: l) (s :: m) ↔ Before l m := by
  rw [before_cons_cons]
  constructor
  · intro hor
    rcases hor with h | ⟨-, h⟩
    · have he : s.order s = .eq := Std.ReflCmp.compare_self
      rw [he] at h
      cases h
    · exact h
  · intro h
    exact .inr ⟨rfl, h⟩

/-- Nothing below a location comes before it. -/
theorem Before.not_append (h : Before l m) (k : Location) : l ≠ m ++ k := by
  induction m generalizing l with
  | nil => exact absurd h (not_before_root l)
  | cons s m ih =>
    intro he
    subst he
    rw [List.cons_append] at h
    exact ih (before_cons_self.1 h) rfl

end Location

end PathQuery
