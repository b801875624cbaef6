import PathQuery.Proofs.Location.Order
import PathQuery.Proofs.Text.Utf8

namespace PathQuery

/-- Which of two steps comes first: lower indices, indices before names, and names in the order of their bytes. -/
inductive Step.ComesBefore : Step → Step → Prop
  | index {i j : Nat} (h : i < j) : ComesBefore (.index i) (.index j)
  | indexName (i : Nat) (s : String) : ComesBefore (.index i) (.name s)
  | name {s t : String} (h : Text.bytes s < Text.bytes t) : ComesBefore (.name s) (.name t)

namespace Step

theorem comesBefore_name_iff {s t : String} : ComesBefore (.name s) (.name t) ↔ Text.bytes s < Text.bytes t := by
  constructor
  · intro h
    cases h with
    | name h => exact h
  · exact .name

theorem order_eq_lt_iff {s t : Step} : s.order t = .lt ↔ s.ComesBefore t := by
  cases s with
  | index i =>
    cases t with
    | index j =>
      show compare i j = .lt ↔ _
      rw [Nat.compare_eq_lt]
      constructor
      · exact .index
      · intro h
        cases h with
        | index h => exact h
    | name t => exact ⟨fun _ => .indexName i t, fun _ => rfl⟩
  | name s =>
    cases t with
    | index j => exact ⟨nofun, nofun⟩
    | name t =>
      show compare s t = .lt ↔ _
      rw [comesBefore_name_iff, Text.bytes_lt_iff, Text.compare_eq_lt_iff]

end Step

namespace Location

variable {l m : Location}

theorem before_append {k : Location} (h : k ≠ []) (l : Location) : Before l (l ++ k) := by
  induction l with
  | nil =>
    obtain ⟨s, k, rfl⟩ := List.exists_cons_of_ne_nil h
    rfl
  | cons s l ih => exact before_cons_self.2 ih

theorem before_of_parting {s t : Step} (h : s.ComesBefore t) (p k k' : Location) :
    Before (p ++ s :: k) (p ++ t :: k') := by
  induction p with
  | nil => exact before_cons_cons.2 (.inl (Step.order_eq_lt_iff.2 h))
  | cons u p ih => exact before_cons_self.2 ih

/-- One location leads to the other, or they part at some step. -/
theorem before_cases (h : Before l m) : (∃ k, k ≠ [] ∧ m = l ++ k) ∨
    ∃ p s t k k', l = p ++ s :: k ∧ m = p ++ t :: k' ∧ s.ComesBefore t := by
  induction l generalizing m with
  | nil =>
    refine .inl ⟨m, ?_, rfl⟩
    rintro rfl
    exact not_before_root [] h
  | cons s l ih =>
    cases m with
    | nil => exact absurd h (not_before_root _)
    | cons t m =>
      rcases before_cons_cons.1 h with hst | ⟨rfl, hlm⟩
      · exact .inr ⟨[], s, t, l, m, rfl, rfl, Step.order_eq_lt_iff.1 hst⟩
      · obtain ⟨k, hk, rfl⟩ | ⟨p, u, v, k, k', rfl, rfl, huv⟩ := ih hlm
        · exact .inl ⟨k, hk, rfl⟩
        · exact .inr ⟨s :: p, u, v, k, k', rfl, rfl, huv⟩

theorem before_iff : Before l m ↔ (∃ k, k ≠ [] ∧ m = l ++ k) ∨
    ∃ p s t k k', l = p ++ s :: k ∧ m = p ++ t :: k' ∧ s.ComesBefore t := by
  refine ⟨before_cases, ?_⟩
  rintro (⟨k, hk, rfl⟩ | ⟨p, s, t, k, k', rfl, rfl, hst⟩)
  · exact before_append hk l
  · exact before_of_parting hst p k k'

/-- Where two locations part, so do all that they lead to. -/
theorem before_append_append (h : Before l m) (hp : ¬l <+: m) (a b : Location) : Before (l ++ a) (m ++ b) := by
  obtain ⟨k, -, rfl⟩ | ⟨p, s, t, k, k', rfl, rfl, hst⟩ := before_cases h
  · exact absurd (List.prefix_append l k) hp
  · rw [List.append_assoc, List.append_assoc, List.cons_append, List.cons_append]
    exact before_of_parting hst p _ _

theorem order_eq_eq_iff : order l m = .eq ↔ l = m := Std.LawfulEqCmp.compare_eq_iff_eq

theorem order_eq_gt_iff : order l m = .gt ↔ Before m l := Std.OrientedCmp.gt_iff_lt

/-- The order on locations is a strict linear order that agrees with equality. It compares locations from their first
step on, indices as numbers and before all names, names by their bytes or, what is the same, by their code points, and a
location before all below it. What is below a location that comes first and does not lead to the other comes before all
that is below the other. -/
theorem order_linear_contiguous (l m k : Location) :
    ¬Before l l ∧ (Before l m → Before m k → Before l k) ∧ (Before l m ∨ l = m ∨ Before m l) ∧
      ((order l m = .eq ↔ l = m) ∧ (order l m = .gt ↔ Before m l) ∧ (l.le m = true ↔ l = m ∨ Before l m)) ∧
      (Before l m ↔ (∃ a, a ≠ [] ∧ m = l ++ a) ∨
        ∃ p s t a b, l = p ++ s :: a ∧ m = p ++ t :: b ∧ s.ComesBefore t) ∧
      (∀ s t : String, Step.ComesBefore (.name s) (.name t) ↔ s.toList.map Char.toNat < t.toList.map Char.toNat) ∧
      (Before l m → ¬l <+: m → ∀ a b, Before (l ++ a) (m ++ b)) := by
  have htrichotomy : Before l m ∨ l = m ∨ Before m l := by
    by_cases h : l = m
    · exact .inr (.inl h)
    · rcases before_or_before h with hlt | hgt
      · exact .inl hlt
      · exact .inr (.inr hgt)
  refine ⟨before_irrefl l, .trans, htrichotomy, ⟨order_eq_eq_iff, order_eq_gt_iff, le_iff⟩, before_iff, fun s t => ?_,
    before_append_append⟩
  rw [Step.comesBefore_name_iff, Text.bytes_lt_iff, Text.codePoints_lt_iff]

/-- In UTF-16 the second name would come first. -/
theorem order_linear_contiguous_names :
    let l : Location := [.index 9, .name "\uE000"]
    let m : Location := [.index 9, .name "😀"]
    let k : Location := [.index 10]
    (Before l m ∧ Before m k ∧ ¬l <+: m) ∧ Before l k ∧ Before (l ++ [.name "z"]) (m ++ [.index 0]) := by
  intro l m k
  have hlm : order l m = .lt := by decide
  have hmk : order m k = .lt := by decide
  have hp : ¬l <+: m := by decide
  obtain ⟨-, htrans, -, -, -, -, hbelow⟩ := order_linear_contiguous l m k
  exact ⟨⟨hlm, hmk, hp⟩, htrans hlm hmk, hbelow hlm hp _ _⟩

end Location

end PathQuery
