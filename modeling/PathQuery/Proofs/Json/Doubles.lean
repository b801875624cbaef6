import Mathlib
import PathQuery.Proofs.Json.Rounding

namespace PathQuery

open Float.Model Float.Model.UnpackedFloat

/-- An unpacked double of 53 digits, the first of them not zero, and the integer that is its value. The exponent is that
of the last digit, which has 52 before it. -/
inductive StandsFor : UnpackedFloat → Int → Prop
  | zero (s : Sign) : StandsFor (.zero s) 0
  | positive {m t x : Nat} (h : 0 < m) (hl : 2 ^ 52 ≤ m) (hu : m < 2 ^ 53) (ht : t ≤ 64) (hx : m * 2 ^ t = x * 2 ^ 52) :
      StandsFor (.finite .positive m (t - 52) h) x
  | negative {m t x : Nat} (h : 0 < m) (hl : 2 ^ 52 ≤ m) (hu : m < 2 ^ 53) (ht : t ≤ 64) (hx : m * 2 ^ t = x * 2 ^ 52) :
      StandsFor (.finite .negative m (t - 52) h) (-x)

section compare

variable {m n t u x y : Nat}

/-- Of two numbers with 53 digits the one with the greater exponent is greater. -/
theorem lt_of_exponent_lt (hm : m < 2 ^ 53) (hn : 2 ^ 52 ≤ n) (hx : m * 2 ^ t = x * 2 ^ 52)
    (hy : n * 2 ^ u = y * 2 ^ 52) (htu : t < u) : x < y := by
  refine Nat.lt_of_mul_lt_mul_right (a := 2 ^ 52) ?_
  calc
    x * 2 ^ 52 = m * 2 ^ t := hx.symm
    _ < 2 ^ 53 * 2 ^ t := Nat.mul_lt_mul_of_pos_right hm (Nat.two_pow_pos t)
    _ = 2 ^ 52 * 2 ^ (t + 1) := by rw [← Nat.pow_add, ← Nat.pow_add]; congr 1; omega
    _ ≤ n * 2 ^ u := Nat.mul_le_mul hn (Nat.pow_le_pow_right (by decide) htu)
    _ = y * 2 ^ 52 := hy

/-- With the same exponent the digits decide. -/
theorem lt_of_digits_lt (hx : m * 2 ^ t = x * 2 ^ 52) (hy : n * 2 ^ t = y * 2 ^ 52) (h : m < n) : x < y := by
  refine Nat.lt_of_mul_lt_mul_right (a := 2 ^ 52) ?_
  rw [← hx, ← hy]
  exact Nat.mul_lt_mul_of_pos_right h (Nat.two_pow_pos t)

theorem compare_scaled (hm : 2 ^ 52 ≤ m) (hm' : m < 2 ^ 53) (hn : 2 ^ 52 ≤ n) (hn' : n < 2 ^ 53)
    (hx : m * 2 ^ t = x * 2 ^ 52) (hy : n * 2 ^ u = y * 2 ^ 52) :
    (compare ((t : Int) - 52) ((u : Int) - 52)).then (compare m n) = compare (x : Int) y := by
  rcases Nat.lt_trichotomy t u with htu | rfl | htu
  · have hxy := lt_of_exponent_lt hm' hn hx hy htu
    rw [Int.compare_eq_lt.2 (by omega), Int.compare_eq_lt.2 (by omega)]
    rfl
  · rw [Int.compare_eq_eq.2 rfl]
    show compare m n = _
    rcases Nat.lt_trichotomy m n with hmn | rfl | hmn
    · have hxy := lt_of_digits_lt hx hy hmn
      rw [Nat.compare_eq_lt.2 hmn, Int.compare_eq_lt.2 (by omega)]
    · have hxy : x = y := Nat.eq_of_mul_eq_mul_right (by decide) (hx.symm.trans hy)
      rw [Nat.compare_eq_eq.2 rfl, Int.compare_eq_eq.2 (by omega)]
    · have hxy := lt_of_digits_lt hy hx hmn
      rw [Nat.compare_eq_gt.2 hmn, Int.compare_eq_gt.2 (by omega)]
  · have hxy := lt_of_exponent_lt hn' hm hy hx htu
    rw [Int.compare_eq_gt.2 (by omega), Int.compare_eq_gt.2 (by omega)]
    rfl

theorem compare_neg (a b : Int) : compare (-a) (-b) = (compare a b).swap := by
  rw [Int.compare_swap, Int.compare_eq_ite_lt, Int.compare_eq_ite_lt]
  have hlt : -a < -b ↔ b < a := by omega
  have hgt : -b < -a ↔ a < b := by omega
  simp only [hlt, hgt]

theorem pos_of_scaled (h : 0 < m) (hx : m * 2 ^ t = x * 2 ^ 52) : 0 < x := by
  refine Nat.pos_of_ne_zero ?_
  rintro rfl
  have := Nat.mul_pos h (Nat.two_pow_pos t)
  omega

/-- Doubles compare as the integers that they stand for. -/
theorem StandsFor.compare {f g : UnpackedFloat} {a b : Int} (hf : StandsFor f a) (hg : StandsFor g b) :
    f.compare g = some (compare a b) := by
  cases hf with
  | zero s =>
    cases hg with
    | zero s' => rfl
    | positive h _ _ _ hx =>
      have := pos_of_scaled h hx
      exact congrArg some (Int.compare_eq_lt.2 (by omega)).symm
    | negative h _ _ _ hx =>
      have := pos_of_scaled h hx
      exact congrArg some (Int.compare_eq_gt.2 (by omega)).symm
  | positive h hl hu _ hx =>
    have hpos := pos_of_scaled h hx
    cases hg with
    | zero s' => exact congrArg some (Int.compare_eq_gt.2 (by omega)).symm
    | positive _ hl' hu' _ hx' => exact congrArg some (compare_scaled hl hu hl' hu' hx hx')
    | negative h' _ _ _ hx' =>
      have := pos_of_scaled h' hx'
      exact congrArg some (Int.compare_eq_gt.2 (by omega)).symm
  | negative h hl hu _ hx =>
    have hpos := pos_of_scaled h hx
    cases hg with
    | zero s' => exact congrArg some (Int.compare_eq_lt.2 (by omega)).symm
    | positive h' _ _ _ hx' =>
      have := pos_of_scaled h' hx'
      exact congrArg some (Int.compare_eq_lt.2 (by omega)).symm
    | negative _ hl' hu' _ hx' =>
      refine congrArg some ?_
      rw [compare_scaled hl hu hl' hu' hx hx', compare_neg]

end compare

section bits

/-- The first of 53 digits is not stored. -/
theorem toNat_implicit {m : Nat} (hl : 2 ^ 52 ≤ m) (hu : m < 2 ^ 53) : (1#1 ++ BitVec.ofNat 52 m).toNat = m := by
  rw [BitVec.toNat_append, ← Nat.shiftLeft_add_eq_or_of_lt (BitVec.isLt _), BitVec.toNat_ofNat, BitVec.toNat_ofNat,
    Nat.shiftLeft_eq]
  omega

theorem finite_congr {s : Sign} {m n : Nat} {e e' : Int} {h : 0 < m} {h' : 0 < n} (hm : m = n) (he : e = e') :
    UnpackedFloat.finite s m e h = .finite s n e' h' := by
  subst hm he
  rfl

theorem unpack_pack_finite (s : Sign) {m t : Nat} (h : 0 < m) (hl : 2 ^ 52 ≤ m) (hu : m < 2 ^ 53) (ht : t ≤ 64) :
    UnpackedFloat.unpack .binary64 (UnpackedFloat.pack .binary64 (.finite s m (t - 52) h)) =
      .finite s m (t - 52) h := by
  have hbiased : ((t : Int) - 52 + Format.binary64.exponentBias + (52 : Nat)).toNat = t + 1023 := by
    simp only [Format.exponentBias]
    omega
  have hlog : m.log2 + 1 = Format.binary64.mantissaBits := by
    have hlog : m.log2 = 52 := (Nat.log2_eq_iff (by omega)).2 ⟨hl, hu⟩
    rw [hlog]
    rfl
  have hfits : ¬2 ^ 11 ≤ t + 1023 + 1 := by omega
  have hpack : UnpackedFloat.pack .binary64 (.finite s m (t - 52) h) =
      packComponents .binary64 s (BitVec.ofNat 11 (t + 1023)) (BitVec.ofNat 52 m) := by
    unfold UnpackedFloat.pack
    dsimp only
    rw [hbiased, if_neg hfits, if_pos hlog]
  have hexponent : (BitVec.ofNat 11 (t + 1023)).toNat = t + 1023 := by
    rw [BitVec.toNat_ofNat]
    omega
  rw [hpack, UnpackedFloat.unpack]
  simp only [unpackMantissa_packComponents, unpackExponent_packComponents, unpackSign_packComponents,
    Sign.ofBitVec_toBitVec]
  have hones : BitVec.ofNat 11 (t + 1023) ≠ -1#11 := by
    intro he
    have := congrArg BitVec.toNat he
    rw [hexponent] at this
    simp at this
    omega
  have hzero : BitVec.ofNat 11 (t + 1023) ≠ 0#11 := by
    intro he
    have := congrArg BitVec.toNat he
    rw [hexponent] at this
    simp at this
  rw [if_neg hones, if_neg hzero]
  have hbias : (Format.binary64.exponentBias : Int) = 1023 := rfl
  refine finite_congr (toNat_implicit hl hu) ?_
  rw [hexponent, hbias]
  omega

/-- What stands for an integer of this size is packed into bits without loss. -/
theorem unpack_pack {f : UnpackedFloat} {a : Int} (h : StandsFor f a) : (Float.Model.pack f).unpack = f := by
  cases h with
  | zero s => cases s <;> rfl
  | positive h hl hu ht _ => exact unpack_pack_finite _ h hl hu ht
  | negative h hl hu ht _ => exact unpack_pack_finite _ h hl hu ht

end bits

section rounding

variable {m n k : Nat}

/-- Shifting keeps whether the digits dropped come to a half of the last one that is left, and whether to more. -/
theorem shiftRight_exact (n k : Nat) : ExtendedMantissa.ofMantissaAndAccuracy n .exact >>> k =
    ⟨n / 2 ^ k, decide (2 ^ k ≤ 2 * (n % 2 ^ k)), decide (2 * (n % 2 ^ k) % 2 ^ k ≠ 0)⟩ := by
  show k.repeat ExtendedMantissa.shiftRightOne _ = _
  induction k with
  | zero => simp [Nat.repeat, ExtendedMantissa.ofMantissaAndAccuracy, Nat.mod_one]
  | succ k ih =>
    have hmod : n % 2 ^ (k + 1) = n % 2 ^ k + 2 ^ k * (n / 2 ^ k % 2) := by rw [Nat.pow_succ, Nat.mod_mul]
    have hr : n % 2 ^ k < 2 ^ k := Nat.mod_lt _ (Nat.two_pow_pos k)
    have hmantissa : n / 2 ^ k / 2 = n / 2 ^ (k + 1) := by rw [Nat.pow_succ, Nat.div_div_eq_div_mul]
    have hround : (n / 2 ^ k % 2 != 0) = decide (2 ^ (k + 1) ≤ 2 * (n % 2 ^ (k + 1))) := by
      rw [Bool.eq_iff_iff, bne_iff_ne, decide_eq_true_iff, hmod, Nat.pow_succ]
      rcases Nat.mod_two_eq_zero_or_one (n / 2 ^ k) with hb | hb <;> rw [hb] <;> omega
    have hsticky : (decide (2 ^ k ≤ 2 * (n % 2 ^ k)) || decide (2 * (n % 2 ^ k) % 2 ^ k ≠ 0)) =
        decide (2 * (n % 2 ^ (k + 1)) % 2 ^ (k + 1) ≠ 0) := by
      have hrest : 2 * (n % 2 ^ (k + 1)) % 2 ^ (k + 1) = 2 * (n % 2 ^ k) := by
        rw [Nat.pow_succ, Nat.mul_comm (2 ^ k) 2, Nat.mul_mod_mul_left, Nat.mod_mul_left_mod]
      rw [hrest, ← Bool.decide_or, decide_eq_decide]
      rcases Nat.lt_or_ge (2 * (n % 2 ^ k)) (2 ^ k) with h | h
      · rw [Nat.mod_eq_of_lt h]
        omega
      · have := Nat.two_pow_pos k
        omega
    rw [Nat.repeat, ih, ExtendedMantissa.shiftRightOne, hmantissa, hround, hsticky]

/-- Dropping digits and rounding goes to the nearest multiple. -/
theorem roundedMantissa_shiftRight (n k : Nat) :
    (ExtendedMantissa.ofMantissaAndAccuracy n .exact >>> k).roundedMantissa = nearestMultiple n (2 ^ k) := by
  have hr : n % 2 ^ k < 2 ^ k := Nat.mod_lt _ (Nat.two_pow_pos k)
  rw [shiftRight_exact, ExtendedMantissa.roundedMantissa, nearestMultiple]
  rcases Nat.lt_or_ge (2 * (n % 2 ^ k)) (2 ^ k) with hlt | hge
  · have hround : decide (2 ^ k ≤ 2 * (n % 2 ^ k)) = false := decide_eq_false (by omega)
    rw [hround, if_neg (by omega)]
    cases decide (2 * (n % 2 ^ k) % 2 ^ k ≠ 0) <;> rfl
  · have hround : decide (2 ^ k ≤ 2 * (n % 2 ^ k)) = true := decide_eq_true hge
    have hmod : 2 * (n % 2 ^ k) % 2 ^ k = 2 * (n % 2 ^ k) - 2 ^ k := by
      rw [Nat.mod_eq_sub_mod hge, Nat.mod_eq_of_lt (by omega)]
    rw [hround, hmod]
    rcases Nat.lt_or_eq_of_le hge with hgt | htie
    · have hsticky : decide (2 * (n % 2 ^ k) - 2 ^ k ≠ 0) = true := decide_eq_true (by omega)
      rw [hsticky, if_pos (.inl hgt)]
      rfl
    · have hsticky : decide (2 * (n % 2 ^ k) - 2 ^ k ≠ 0) = false := decide_eq_false (by omega)
      rw [hsticky]
      show n / 2 ^ k + n / 2 ^ k % 2 = _
      split <;> omega

/-- A number with 53 digits, or more of them that are dropped, gets the exponent of its last digit. -/
theorem shiftToTargetExponent_eq {e : Int} (he : -52 ≤ e) (hk : m.log2 = 52 + k) :
    shiftToTargetExponent .binary64 m e .exact = (ExtendedMantissa.ofMantissaAndAccuracy m .exact >>> k, e + k) := by
  have hmin : Format.binary64.minExponent = -1074 := rfl
  have hbits : (Format.binary64.mantissaBits : Int) = 53 := rfl
  have htarget : Format.binary64.targetExponent (totalExponent m e) - e = k := by
    rw [Format.targetExponent, totalExponent, hmin, hbits]
    omega
  rw [shiftToTargetExponent, shiftToExponent, htarget, Int.toNat_natCast]

theorem shiftRight_mantissa (m k : Nat) :
    (ExtendedMantissa.ofMantissaAndAccuracy m .exact >>> k).mantissa = m / 2 ^ k := by
  rw [shiftRight_exact]

/-- What is left of 53 digits or more after the second shift, which drops a digit if a carry has given one more. -/
theorem shiftToTargetExponent_rounded {r t x : Nat} (hl : 2 ^ 52 ≤ r) (hu : r ≤ 2 ^ 53) (ht : t ≤ 63)
    (hx : r * 2 ^ t = x * 2 ^ 52) : ∃ (t' : Nat), t' ≤ 64 ∧
      2 ^ 52 ≤ (shiftToTargetExponent .binary64 r (t - 52) .exact).1.mantissa ∧
      (shiftToTargetExponent .binary64 r (t - 52) .exact).1.mantissa < 2 ^ 53 ∧
      (shiftToTargetExponent .binary64 r (t - 52) .exact).1.mantissa * 2 ^ t' = x * 2 ^ 52 ∧
      (shiftToTargetExponent .binary64 r (t - 52) .exact).2 = (t' : Int) - 52 := by
  rcases Nat.lt_or_eq_of_le hu with hlt | rfl
  · have hlog : r.log2 = 52 + 0 := (Nat.log2_eq_iff (by omega)).2 ⟨hl, hlt⟩
    rw [shiftToTargetExponent_eq (by omega) hlog, shiftRight_mantissa, Nat.pow_zero, Nat.div_one]
    exact ⟨t, by omega, hl, hlt, hx, by omega⟩
  · have hlog : (2 ^ 53).log2 = 52 + 1 := Nat.log2_two_pow
    rw [shiftToTargetExponent_eq (by omega) hlog, shiftRight_mantissa]
    refine ⟨t + 1, by omega, by decide, by decide, ?_, by omega⟩
    rw [← hx, Nat.pow_succ' (n := t), ← Nat.mul_assoc, Nat.pow_one, Nat.div_mul_cancel (by decide)]

/-- What rounding makes of a number of 53 digits or more. -/
theorem roundWithAccuracy_standsFor {e : Int} {t x : Nat} (he : -52 ≤ e) (hm : m ≠ 0) (hk : m.log2 = 52 + k)
    (ht : e + k = t - 52) (ht' : t ≤ 63) (hx : nearestMultiple m (2 ^ k) * 2 ^ t = x * 2 ^ 52) :
    StandsFor (roundWithAccuracy .binary64 .positive m e .exact) x := by
  have hspacing : spacing m = 2 ^ k := by rw [spacing, hk, Nat.add_sub_cancel_left]
  have hl : 2 ^ 52 ≤ nearestMultiple m (2 ^ k) := hspacing ▸ two_pow_le_nearestMultiple hm (by omega)
  have hu : nearestMultiple m (2 ^ k) ≤ 2 ^ 53 := hspacing ▸ nearestMultiple_le_two_pow (by omega)
  obtain ⟨t', hlast, hl', hu', hx', he'⟩ := shiftToTargetExponent_rounded hl hu ht' hx
  rw [roundWithAccuracy, shiftToTargetExponent_eq he hk]
  dsimp only
  rw [roundedMantissa_shiftRight, ht]
  generalize shiftToTargetExponent .binary64 (nearestMultiple m (2 ^ k)) (t - 52) .exact = final at hl' hu' hx' he'
  obtain ⟨em, e'⟩ := final
  dsimp only at hl' hu' hx' he' ⊢
  subst he'
  rw [dif_neg (by omega)]
  exact .positive _ hl' hu' hlast hx'

theorem log2_mul_two_pow (hn : n ≠ 0) (s : Nat) : (n * 2 ^ s).log2 = n.log2 + s := by
  have hpos := Nat.two_pow_pos s
  refine (Nat.log2_eq_iff ?_).2 ⟨?_, ?_⟩
  · exact Nat.mul_ne_zero hn (by omega)
  · rw [Nat.pow_add]
    exact Nat.mul_le_mul_right _ (Nat.log2_self_le hn)
  · have hexponent : n.log2 + s + 1 = n.log2 + 1 + s := by omega
    rw [hexponent, Nat.pow_add]
    exact Nat.mul_lt_mul_of_pos_right Nat.lt_log2_self hpos

/-- The double of an integer of at most 64 bits stands for the integer that this one is rounded to. -/
theorem standsFor_ofNat (h : n < 2 ^ 64) : StandsFor (UnpackedFloat.ofNat .binary64 n) (nearestNat n) := by
  rcases Nat.eq_zero_or_pos n with rfl | hpos
  · exact .zero .positive
  have hn : n ≠ 0 := by omega
  have hlog : n.log2 < 64 := (Nat.log2_lt hn).2 h
  have hmin : Format.binary64.minExponent = -1074 := rfl
  have hbits : (Format.binary64.mantissaBits : Int) = 53 := rfl
  have htarget : Format.binary64.targetExponent (totalExponent n 0) = n.log2 - 52 := by
    rw [Format.targetExponent, totalExponent, hmin, hbits]
    omega
  have hround : UnpackedFloat.ofNat .binary64 n =
      roundWithAccuracy .binary64 .positive (n * 2 ^ (52 - n.log2)) (-(52 - n.log2 : Nat)) .exact := by
    have hgt : compare (n : Int) 0 = .gt := Int.compare_eq_gt.2 (by omega)
    have hshift : ((0 : Int) - (n.log2 - 52)).toNat = 52 - n.log2 := by omega
    rw [UnpackedFloat.ofNat, UnpackedFloat.ofInt, UnpackedFloat.normalize, hgt]
    show UnpackedFloat.round .binary64 .positive n 0 = _
    rw [UnpackedFloat.round, htarget, decreaseExponent, hshift, Nat.shiftLeft_eq, Int.zero_sub]
  rw [hround]
  refine roundWithAccuracy_standsFor (k := n.log2 - 52) (t := n.log2) (by omega) ?_ ?_ (by omega) (by omega) ?_
  · exact Nat.mul_ne_zero hn (Nat.ne_of_gt (Nat.two_pow_pos _))
  · rw [log2_mul_two_pow hn]
    omega
  · rcases Nat.le_total n.log2 52 with hsmall | hlarge
    · have hexact : nearestNat n = n := by
        refine nearestNat_eq_self (Nat.le_of_lt ?_)
        exact Nat.lt_of_lt_of_le Nat.lt_log2_self (Nat.pow_le_pow_right (by decide) (by omega))
      have hone : nearestMultiple (n * 2 ^ (52 - n.log2)) 1 = n * 2 ^ (52 - n.log2) := by
        simp [nearestMultiple, Nat.mod_one]
      rw [Nat.sub_eq_zero_of_le hsmall, Nat.pow_zero, hone, hexact, Nat.mul_assoc, ← Nat.pow_add,
        Nat.sub_add_cancel hsmall]
    · rw [Nat.sub_eq_zero_of_le hlarge, Nat.pow_zero, Nat.mul_one, nearestNat, Nat.mul_assoc, spacing, ← Nat.pow_add,
        Nat.sub_add_cancel hlarge]

end rounding

theorem StandsFor.neg {f : UnpackedFloat} {a : Int} (h : StandsFor f a) : StandsFor f.neg (-a) := by
  cases h with
  | zero s => exact .zero (-s)
  | positive h hl hu ht hx => exact .negative h hl hu ht hx
  | negative h hl hu ht hx =>
    rw [Int.neg_neg]
    exact .positive h hl hu ht hx

section words

variable {a b : Int}

theorem standsFor_nearestFloat (h : IsWord a) : StandsFor (nearestFloat a).toModel.unpack (nearestInt a) := by
  have hlt := h.natAbs_lt
  have hword : (UInt64.ofNat a.natAbs).toNat = a.natAbs := UInt64.toNat_ofNat_of_lt' hlt
  have hstands : StandsFor (UInt64.ofNat a.natAbs).toFloat.toModel.unpack (nearestNat a.natAbs) := by
    show StandsFor (Float.Model.pack (UnpackedFloat.ofNat .binary64 (UInt64.ofNat a.natAbs).toNat)).unpack _
    rw [hword, unpack_pack (standsFor_ofNat hlt)]
    exact standsFor_ofNat hlt
  unfold nearestFloat nearestInt
  split
  · show StandsFor (Float.Model.pack (UInt64.ofNat a.natAbs).toFloat.toModel.unpack.neg).unpack _
    rw [unpack_pack hstands.neg]
    exact hstands.neg
  · exact hstands

/-- Doubles of integers compare as what these are rounded to. -/
theorem compare_nearestFloat (ha : IsWord a) (hb : IsWord b) :
    (nearestFloat a).toModel.compare (nearestFloat b).toModel = some (compare (nearestInt a) (nearestInt b)) :=
  (standsFor_nearestFloat ha).compare (standsFor_nearestFloat hb)

theorem nearestFloat_lt (ha : IsWord a) (hb : IsWord b) :
    nearestFloat a < nearestFloat b ↔ nearestInt a < nearestInt b := by
  have hlt : nearestFloat a < nearestFloat b ↔
      ((nearestFloat a).toModel.compare (nearestFloat b).toModel == some .lt) = true := by
    show decide ((nearestFloat a).toModel < (nearestFloat b).toModel) = true ↔ _
    rw [decide_eq_true_iff]
    exact Iff.rfl
  rw [hlt, compare_nearestFloat ha hb, beq_iff_eq, Option.some.injEq, Int.compare_eq_lt]

theorem nearestFloat_beq (ha : IsWord a) (hb : IsWord b) :
    (nearestFloat a == nearestFloat b) = decide (nearestInt a = nearestInt b) := by
  have hbeq : (nearestFloat a == nearestFloat b) =
      ((nearestFloat a).toModel.compare (nearestFloat b).toModel == some .eq) := rfl
  rw [hbeq, compare_nearestFloat ha hb, Bool.eq_iff_iff, beq_iff_eq, Option.some.injEq, Int.compare_eq_eq,
    decide_eq_true_iff]

end words

end PathQuery
