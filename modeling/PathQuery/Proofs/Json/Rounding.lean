import Mathlib.Algebra.Order.Ring.Int
import PathQuery.Json.Value

namespace PathQuery

/-- The distance of the doubles near an integer of 64 bits. -/
def spacing (n : Nat) : Nat := 2 ^ (n.log2 - 52)

/-- How many times the spacing is nearest to an integer, of two the even number. -/
def nearestMultiple (n unit : Nat) : Nat :=
  if unit < 2 * (n % unit) ∨ 2 * (n % unit) = unit ∧ n / unit % 2 = 1 then n / unit + 1 else n / unit

/-- The integer that is the value of the double nearest to another. -/
def nearestNat (n : Nat) : Nat := nearestMultiple n (spacing n) * spacing n

/-- Integers of either sign are rounded alike. -/
def nearestInt (a : Int) : Int := if a < 0 then -nearestNat a.natAbs else nearestNat a.natAbs

section nat

variable {m n k unit : Nat}

theorem spacing_pos (n : Nat) : 0 < spacing n := Nat.two_pow_pos _

theorem div_le_nearestMultiple (n unit : Nat) : n / unit ≤ nearestMultiple n unit := by
  unfold nearestMultiple
  split <;> omega

theorem nearestMultiple_le (n unit : Nat) : nearestMultiple n unit ≤ n / unit + 1 := by
  unfold nearestMultiple
  split <;> omega

/-- Rounding keeps the order. -/
theorem nearestMultiple_mono (h : m ≤ n) : nearestMultiple m unit ≤ nearestMultiple n unit := by
  have hdiv : m / unit ≤ n / unit := Nat.div_le_div_right h
  rcases Nat.lt_or_eq_of_le hdiv with hlt | heq
  · calc
      nearestMultiple m unit ≤ m / unit + 1 := nearestMultiple_le m unit
      _ ≤ n / unit := hlt
      _ ≤ nearestMultiple n unit := div_le_nearestMultiple n unit
  · have hmod : m % unit ≤ n % unit := by
      have hm := Nat.div_add_mod m unit
      have hn := Nat.div_add_mod n unit
      rw [heq] at hm
      omega
    unfold nearestMultiple
    rw [heq]
    split <;> split <;> omega

/-- A number of 53 digits is left as it is. -/
theorem nearestNat_eq_self (h : n ≤ 2 ^ 53) : nearestNat n = n := by
  rcases Nat.lt_or_eq_of_le h with hlt | rfl
  · have hlog : n.log2 - 52 = 0 := by
      rcases Nat.eq_zero_or_pos n with rfl | hn
      · rfl
      · have := (Nat.log2_lt (Nat.ne_of_gt hn)).2 hlt
        omega
    simp [nearestNat, nearestMultiple, spacing, hlog, Nat.mod_one]
  · rfl

/-- There are at least 52 digits behind the first one. -/
theorem two_pow_le_nearestMultiple (hn : n ≠ 0) (h : 52 ≤ n.log2) : 2 ^ 52 ≤ nearestMultiple n (spacing n) := by
  refine Nat.le_trans ?_ (div_le_nearestMultiple n _)
  rw [Nat.le_div_iff_mul_le (spacing_pos n), spacing, ← Nat.pow_add, Nat.add_sub_cancel' h]
  exact Nat.log2_self_le hn

theorem nearestMultiple_le_two_pow (h : 52 ≤ n.log2) : nearestMultiple n (spacing n) ≤ 2 ^ 53 := by
  refine Nat.le_trans (nearestMultiple_le n _) ?_
  have hlt : n / spacing n < 2 ^ 53 := by
    rw [Nat.div_lt_iff_lt_mul (spacing_pos n), spacing, ← Nat.pow_add]
    have hexponent : 53 + (n.log2 - 52) = n.log2 + 1 := by omega
    rw [hexponent]
    exact Nat.lt_log2_self
  exact hlt

theorem two_pow_log2_le_nearestNat (hn : n ≠ 0) : 2 ^ n.log2 ≤ nearestNat n := by
  rcases Nat.le_total n.log2 52 with hlog | hlog
  · have hsmall : n ≤ 2 ^ 53 := by
      have hlt : n < 2 ^ (n.log2 + 1) := Nat.lt_log2_self
      have hpow : 2 ^ (n.log2 + 1) ≤ 2 ^ 53 := Nat.pow_le_pow_right (by decide) (by omega)
      omega
    rw [nearestNat_eq_self hsmall]
    exact Nat.log2_self_le hn
  · calc
      2 ^ n.log2 = 2 ^ 52 * spacing n := by rw [spacing, ← Nat.pow_add, Nat.add_sub_cancel' hlog]
      _ ≤ nearestNat n := Nat.mul_le_mul_right _ (two_pow_le_nearestMultiple hn hlog)

theorem nearestNat_le_two_pow (n : Nat) : nearestNat n ≤ 2 ^ (n.log2 + 1) := by
  rcases Nat.le_total n.log2 52 with hlog | hlog
  · have hlt : n < 2 ^ (n.log2 + 1) := Nat.lt_log2_self
    have hpow : 2 ^ (n.log2 + 1) ≤ 2 ^ 53 := Nat.pow_le_pow_right (by decide) (by omega)
    rw [nearestNat_eq_self (by omega)]
    omega
  · calc
      nearestNat n ≤ 2 ^ 53 * spacing n := Nat.mul_le_mul_right _ (nearestMultiple_le_two_pow hlog)
      _ = 2 ^ (n.log2 + 1) := by
        rw [spacing, ← Nat.pow_add]
        congr 1
        omega

theorem nearestNat_mono (h : m ≤ n) : nearestNat m ≤ nearestNat n := by
  rcases Nat.eq_zero_or_pos m with rfl | hm
  · simp [nearestNat_eq_self]
  have hn : n ≠ 0 := by omega
  have hlog : m.log2 ≤ n.log2 := by
    rw [Nat.le_log2 hn]
    exact Nat.le_trans (Nat.log2_self_le (by omega)) h
  rcases Nat.lt_or_eq_of_le hlog with hlt | heq
  · calc
      nearestNat m ≤ 2 ^ (m.log2 + 1) := nearestNat_le_two_pow m
      _ ≤ 2 ^ n.log2 := Nat.pow_le_pow_right (by decide) hlt
      _ ≤ nearestNat n := two_pow_log2_le_nearestNat hn
  · have hspacing : spacing m = spacing n := by rw [spacing, spacing, heq]
    rw [nearestNat, nearestNat, hspacing]
    exact Nat.mul_le_mul_right _ (nearestMultiple_mono h)

/-- Rounding goes no further than half the spacing. -/
theorem nearestNat_near (n : Nat) : 2 * nearestNat n ≤ 2 * n + spacing n ∧ 2 * n ≤ 2 * nearestNat n + spacing n := by
  have hpos := spacing_pos n
  have hdiv := Nat.div_add_mod n (spacing n)
  have hmod := Nat.mod_lt n hpos
  rw [Nat.mul_comm] at hdiv
  rw [nearestNat, nearestMultiple]
  split
  · rw [Nat.add_mul, Nat.one_mul]
    omega
  · omega

theorem spacing_le (h : n < 2 ^ 64) : spacing n ≤ 2 ^ 11 := by
  refine Nat.pow_le_pow_right (by decide) ?_
  rcases Nat.eq_zero_or_pos n with rfl | hpos
  · decide
  · have := (Nat.log2_lt (Nat.ne_of_gt hpos)).2 h
    omega

end nat

/-- An integer as it can stand in a document: a word of 64 bits, with sign or without. -/
def IsWord (a : Int) : Prop := -2 ^ 63 ≤ a ∧ a < 2 ^ 64

theorem IsWord.natAbs_lt {a : Int} (h : IsWord a) : a.natAbs < 2 ^ 64 := by
  have := h.1
  have := h.2
  omega

theorem nearestInt_mono {a b : Int} (h : a ≤ b) : nearestInt a ≤ nearestInt b := by
  unfold nearestInt
  split <;> split
  · have := nearestNat_mono (show b.natAbs ≤ a.natAbs by omega)
    omega
  · omega
  · omega
  · have := nearestNat_mono (show a.natAbs ≤ b.natAbs by omega)
    omega

theorem nearestInt_eq_self {a : Int} (h : a.natAbs ≤ 2 ^ 53) : nearestInt a = a := by
  rw [nearestInt, nearestNat_eq_self h]
  split <;> omega

/-- Two integers are told apart if they are not rounded to the same one. -/
def ToldApart (a b : Int) : Prop := a = b ∨ nearestInt a ≠ nearestInt b

section apart

variable {a b : Int}

theorem ToldApart.symm (h : ToldApart a b) : ToldApart b a := h.imp Eq.symm Ne.symm

theorem ToldApart.eq_iff (h : ToldApart a b) : nearestInt a = nearestInt b ↔ a = b := by
  refine ⟨fun heq => h.resolve_right fun hne => hne heq, ?_⟩
  rintro rfl
  rfl

theorem toldApart_iff : ToldApart a b ↔ (nearestInt a = nearestInt b ↔ a = b) := by
  refine ⟨ToldApart.eq_iff, fun h => ?_⟩
  by_cases heq : a = b
  · exact .inl heq
  · exact .inr fun hn => heq (h.1 hn)

theorem ToldApart.lt_iff (h : ToldApart a b) : nearestInt a < nearestInt b ↔ a < b := by
  constructor
  · intro hlt
    refine Int.not_le.1 fun hle => ?_
    have := nearestInt_mono hle
    omega
  · intro hlt
    have hle := nearestInt_mono (Int.le_of_lt hlt)
    have hne : nearestInt a ≠ nearestInt b := fun heq => by
      have := h.eq_iff.1 heq
      omega
    omega

theorem toldApart_of_small (ha : a.natAbs ≤ 2 ^ 53) (hb : b.natAbs ≤ 2 ^ 53) : ToldApart a b := by
  rw [ToldApart, nearestInt_eq_self ha, nearestInt_eq_self hb]
  exact Decidable.em _

/-- Only neighbours are taken for each other. -/
theorem toldApart_of_distant (ha : IsWord a) (hb : IsWord b) (h : 2 ^ 11 < (a - b).natAbs) :
    ToldApart a b := by
  refine .inr ?_
  intro heq
  have hnear := nearestNat_near a.natAbs
  have hnear' := nearestNat_near b.natAbs
  have hspacing := spacing_le ha.natAbs_lt
  have hspacing' := spacing_le hb.natAbs_lt
  unfold nearestInt at heq
  split at heq <;> split at heq <;> omega

end apart

end PathQuery
