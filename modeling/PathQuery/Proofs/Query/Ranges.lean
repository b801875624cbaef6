import Mathlib.Order.Basic
import PathQuery.Query.Slice

namespace PathQuery

/-- The number of steps of a width that start before a distance is covered. -/
def stepCount (distance width : Int) : Nat := ((distance - 1) / width + 1).toNat

section steps

variable {distance width : Int}

theorem stepCount_of_nonpos (hw : 0 < width) (hd : distance ≤ 0) : stepCount distance width = 0 := by
  have hneg : (distance - 1) / width < 0 := Int.ediv_neg_of_neg_of_pos (by omega) hw
  simp only [stepCount]
  omega

theorem stepCount_of_pos (hw : 0 < width) (hd : 0 < distance) :
    stepCount distance width = stepCount (distance - width) width + 1 := by
  have hnonneg : 0 ≤ (distance - 1) / width := Int.ediv_nonneg (by omega) (by omega)
  have hshift : (distance - width - 1) / width = (distance - 1) / width - 1 := by
    have hsum : distance - width - 1 = (distance - 1) + (-1) * width := by omega
    rw [hsum, Int.add_mul_ediv_right _ _ (by omega)]
    omega
  simp only [stepCount, hshift]
  omega

theorem stepCount_le (hw : 0 < width) : stepCount distance width ≤ distance.toNat := by
  by_cases hd : 0 < distance
  · have hle : (distance - 1) / width ≤ distance - 1 := Int.ediv_le_self _ (by omega)
    simp only [stepCount]
    omega
  · rw [stepCount_of_nonpos hw (by omega)]
    exact Nat.zero_le _

theorem mul_lt_of_lt_stepCount (hw : 0 < width) {k : Nat} (h : k < stepCount distance width) :
    k * width < distance := by
  have hk : (k : Int) ≤ (distance - 1) / width := by
    simp only [stepCount] at h
    omega
  have hmul := (Int.le_ediv_iff_mul_le hw).1 hk
  omega

end steps

/-- `start`, `start + step`, … up or down to `stop`, which is left out. -/
def intRange (start stop step : Int) : List Int :=
  (List.range (if 0 < step then stepCount (stop - start) step else stepCount (start - stop) (-step))).map
    fun k : Nat => start + k * step

/-- A stop lies ahead in the direction of a step. -/
def Ahead (start stop step : Int) : Prop := 0 < step ∧ start < stop ∨ step < 0 ∧ stop < start

section ranges

variable {start stop step i : Int}

theorem intRange_of_not_ahead (hs : step ≠ 0) (h : ¬Ahead start stop step) : intRange start stop step = [] := by
  unfold Ahead at h
  unfold intRange
  split
  · rw [stepCount_of_nonpos (by assumption) (by omega)]
    rfl
  · rw [stepCount_of_nonpos (by omega) (by omega)]
    rfl

theorem intRange_of_ahead (h : Ahead start stop step) :
    intRange start stop step = start :: intRange (start + step) stop step := by
  have hcount : ∀ n : Nat, ((List.range (n + 1)).map fun k : Nat => start + k * step) =
      start :: (List.range n).map fun k : Nat => start + step + k * step := by
    intro n
    rw [List.range_succ_eq_map, List.map_cons, List.map_map]
    refine congrArg₂ List.cons (by simp) (List.map_congr_left fun k _ => ?_)
    simp only [Function.comp_apply, Nat.succ_eq_add_one, Int.natCast_add, Int.add_mul]
    omega
  unfold intRange
  rcases h with ⟨hs, h⟩ | ⟨hs, h⟩
  · have hrest : stop - (start + step) = stop - start - step := by omega
    rw [if_pos hs, if_pos hs, hrest, stepCount_of_pos hs (by omega), hcount]
  · have hrest : start + step - stop = start - stop - -step := by omega
    have hneg : ¬0 < step := by omega
    rw [if_neg hneg, if_neg hneg, hrest, stepCount_of_pos (by omega) (by omega), hcount]

/-- The sum of two 64-bit integers that is none itself is beyond every bound that is one. -/
theorem not_ahead_of_int64? (hi : fitsInt64 i = true) (hstop : fitsInt64 stop = true)
    (h : int64? (i + step) = none) : ¬Ahead (i + step) stop step := by
  have hbeyond : ¬fitsInt64 (i + step) = true := by simpa [int64?] using h
  simp only [fitsInt64, Bool.and_eq_true, decide_eq_true_eq] at hi hstop hbeyond
  unfold Ahead
  omega

theorem fitsInt64_of_int64? {next : Int} (h : int64? i = some next) : fitsInt64 next = true := by
  unfold int64? at h
  split at h
  · cases h
    assumption
  · cases h

theorem upward_eq (hs : 0 < step) (hi : fitsInt64 i = true) (hstop : fitsInt64 stop = true) (hn : 0 ≤ i) :
    (upward stop hs i).map (fun j : Nat => (j : Int)) = intRange i stop step := by
  fun_induction upward stop hs i with
  | case1 i h ih =>
    rw [intRange_of_ahead (.inl ⟨hs, h⟩), List.map_cons, Int.toNat_of_nonneg hn]
    split
    · next next hnext =>
      have heq := eq_of_int64? hnext
      rw [ih next hnext (fitsInt64_of_int64? hnext) (by omega), heq]
    · next hnext => rw [intRange_of_not_ahead (by omega) (not_ahead_of_int64? hi hstop hnext), List.map_nil]
  | case2 i h =>
    have hend : ¬Ahead i stop step := by
      unfold Ahead
      omega
    rw [intRange_of_not_ahead (by omega) hend, List.map_nil]

theorem downward_eq (hs : step < 0) (hi : fitsInt64 i = true) (hstop : fitsInt64 stop = true) (hn : -1 ≤ stop) :
    (downward stop hs i).map (fun j : Nat => (j : Int)) = intRange i stop step := by
  fun_induction downward stop hs i with
  | case1 i h ih =>
    have hnonneg : 0 ≤ i := by omega
    rw [intRange_of_ahead (.inr ⟨hs, h⟩), if_pos hnonneg, List.singleton_append, List.map_cons,
      Int.toNat_of_nonneg hnonneg]
    split
    · next next hnext =>
      have heq := eq_of_int64? hnext
      rw [ih next hnext (fitsInt64_of_int64? hnext), heq]
    · next hnext => rw [intRange_of_not_ahead (by omega) (not_ahead_of_int64? hi hstop hnext), List.map_nil]
  | case2 i h =>
    have hend : ¬Ahead i stop step := by
      unfold Ahead
      omega
    rw [intRange_of_not_ahead (by omega) hend, List.map_nil]

/-- A range between two places has no more integers than there are places. -/
theorem intRange_length_le (hs : step ≠ 0) : (intRange start stop step).length ≤ (stop - start).natAbs := by
  rw [intRange, List.length_map, List.length_range]
  split
  · next hpos =>
    have hle : stepCount (stop - start) step ≤ (stop - start).toNat := stepCount_le hpos
    omega
  · have hle : stepCount (start - stop) (-step) ≤ (start - stop).toNat := stepCount_le (by omega)
    omega

/-- The integers of a range are between its start and its stop. -/
theorem between_of_mem_intRange (hs : step ≠ 0) {j : Int} (h : j ∈ intRange start stop step) :
    0 < step ∧ start ≤ j ∧ j < stop ∨ step < 0 ∧ stop < j ∧ j ≤ start := by
  obtain ⟨k, hk, rfl⟩ := List.mem_map.1 h
  rw [List.mem_range] at hk
  split at hk
  · next hpos =>
    have hlt := mul_lt_of_lt_stepCount hpos hk
    have hnonneg : 0 ≤ (k : Int) * step := Int.mul_nonneg (by omega) (by omega)
    exact .inl ⟨hpos, by omega, by omega⟩
  · have hlt := mul_lt_of_lt_stepCount (by omega) hk
    have hnonneg : 0 ≤ (k : Int) * -step := Int.mul_nonneg (by omega) (by omega)
    rw [Int.mul_neg] at hlt hnonneg
    exact .inr ⟨by omega, by omega, by omega⟩

end ranges

namespace Slice

/-- The lowest place where a range of indices can start or stop. -/
def lowest (s : Slice) : Int := if 0 < s.step then 0 else -1

/-- The highest place where a range of `size` indices can start or stop. -/
def highest (s : Slice) (size : Nat) : Int := if 0 < s.step then size else size - 1

/-- A bound of a slice of `size` indices, counted from the front and moved between the lowest and the highest place. -/
def adjust (s : Slice) (size : Nat) (bound : Int) : Int :=
  if bound < 0 then max (bound + size) s.lowest else min bound (s.highest size)

/-- Where the slice of a range of `size` indices starts. -/
def first (s : Slice) (size : Nat) : Int :=
  s.start.elim (if 0 < s.step then s.lowest else s.highest size) (s.adjust size)

/-- Where the slice of a range of `size` indices stops. -/
def limit (s : Slice) (size : Nat) : Int :=
  s.stop.elim (if 0 < s.step then s.highest size else s.lowest) (s.adjust size)

/-- The slice of the range of `size` indices, as Python has it. -/
def range (s : Slice) (size : Nat) : List Int := intRange (s.first size) (s.limit size) s.step

/-- The bounds and the step of a slice are 64-bit integers, and the step is not zero. -/
structure Fits (s : Slice) : Prop where
  start : ∀ b ∈ s.start, fitsInt64 b = true
  stop : ∀ b ∈ s.stop, fitsInt64 b = true
  step : fitsInt64 s.step = true
  nonzero : s.step ≠ 0

/-- What a slice does with an array: no sum leaves the 64-bit integers, and the indices are those of the sliced range,
in its order, so each is below the size and there are at most so many. -/
structure Slices (s : Slice) (size : Nat) : Prop where
  start_sum : ∀ b ∈ s.start, b < 0 → fitsInt64 (size + b) = true
  stop_sum : ∀ b ∈ s.stop, b < 0 → fitsInt64 (size + b) = true
  start_fits : fitsInt64 (s.getStart size) = true
  stop_fits : fitsInt64 (s.getStop size) = true
  last_fits : fitsInt64 ((size : Int) - 1) = true
  indices_eq : (s.indices size).map (fun j : Nat => (j : Int)) = s.range size
  indices_lt : ∀ j ∈ s.indices size, j < size
  length_le : (s.indices size).length ≤ size

variable {s : Slice} {size : Nat}

theorem fitsInt64_clamp (hn : size < 0x8000000000000000) {b : Int} (h : fitsInt64 b = true) :
    fitsInt64 (clamp size b) = true := by
  simp only [fitsInt64, Bool.and_eq_true, decide_eq_true_eq] at h ⊢
  unfold clamp
  omega

theorem fitsInt64_getStart (hn : size < 0x8000000000000000) (hs : s.Fits) : fitsInt64 (s.getStart size) = true := by
  unfold getStart
  split
  · next b hb => exact fitsInt64_clamp hn (hs.start b hb)
  · simp only [fitsInt64, Bool.and_eq_true, decide_eq_true_eq]
    omega

theorem fitsInt64_getStop (hn : size < 0x8000000000000000) (hs : s.Fits) : fitsInt64 (s.getStop size) = true := by
  unfold getStop
  split
  · next b hb => exact fitsInt64_clamp hn (hs.stop b hb)
  · simp only [fitsInt64, Bool.and_eq_true, decide_eq_true_eq]
    omega

/-- Of the ways to bound a range only those differ that leave nothing of it. -/
theorem intRange_congr {step a b c d : Int} (hs : step ≠ 0) (h : Ahead a b step ↔ Ahead c d step)
    (he : Ahead a b step → a = c ∧ b = d) : intRange a b step = intRange c d step := by
  by_cases ha : Ahead a b step
  · obtain ⟨rfl, rfl⟩ := he ha
    rfl
  · rw [intRange_of_not_ahead hs ha, intRange_of_not_ahead hs (fun hc => ha (h.2 hc))]

theorem getStart_le : s.getStart size ≤ size := by
  unfold getStart clamp
  split
  · omega
  · split <;> omega

theorem getStop_le : s.getStop size ≤ size := by
  unfold getStop clamp
  split <;> omega

theorem first_of_pos (h : 0 < s.step) : s.first size = max (s.getStart size) 0 := by
  have hnonneg : 0 ≤ s.step := by omega
  cases hb : s.start with
  | none => simp [first, getStart, lowest, hb, h, hnonneg]
  | some b =>
    simp only [first, getStart, adjust, clamp, lowest, highest, hb, h, if_true, Option.elim_some]
    omega

theorem limit_of_pos (h : 0 < s.step) : s.limit size = max (s.getStop size) 0 := by
  have hnonneg : 0 ≤ s.step := by omega
  cases hb : s.stop with
  | none =>
    simp only [limit, getStop, highest, hb, h, hnonneg, if_true, Option.elim_none]
    omega
  | some b =>
    simp only [limit, getStop, adjust, clamp, lowest, highest, hb, h, if_true, Option.elim_some]
    omega

theorem first_of_neg (h : s.step < 0) :
    s.first size = max (if size ≤ s.getStart size then (size : Int) - 1 else s.getStart size) (-1) := by
  have hpos : ¬0 < s.step := by omega
  have hnonneg : ¬0 ≤ s.step := by omega
  cases hb : s.start with
  | none =>
    simp only [first, getStart, highest, hb, hpos, hnonneg, if_false, Option.elim_none]
    omega
  | some b =>
    simp only [first, getStart, adjust, clamp, lowest, highest, hb, hpos, if_false, Option.elim_some]
    omega

theorem limit_of_neg (h : s.step < 0) : s.limit size = min (max (s.getStop size) (-1)) ((size : Int) - 1) := by
  have hpos : ¬0 < s.step := by omega
  have hnonneg : ¬0 ≤ s.step := by omega
  cases hb : s.stop with
  | none =>
    simp only [limit, getStop, lowest, hb, hpos, hnonneg, if_false, Option.elim_none]
    omega
  | some b =>
    simp only [limit, getStop, adjust, clamp, lowest, highest, hb, hpos, if_false, Option.elim_some]
    omega

/-- The loops go through the sliced range. -/
theorem map_indices (hn : size < 0x8000000000000000) (hs : s.Fits) :
    (s.indices size).map (fun j : Nat => (j : Int)) = s.range size := by
  have hstart := fitsInt64_getStart hn hs
  have hstop := fitsInt64_getStop hn hs
  unfold indices range
  split
  · next hpos =>
    rw [upward_eq hpos _ hstop (by omega), first_of_pos hpos, limit_of_pos hpos]
    · refine intRange_congr hs.nonzero ?_ ?_
      all_goals
        unfold Ahead
        omega
    · simp only [fitsInt64, Bool.and_eq_true, decide_eq_true_eq] at hstart ⊢
      omega
  · next hpos =>
    have hneg : s.step < 0 := by
      have hne := hs.nonzero
      omega
    rw [dif_pos hneg, downward_eq hneg _ _ (by omega), first_of_neg hneg, limit_of_neg hneg]
    · refine intRange_congr hs.nonzero ?_ ?_
      all_goals
        unfold Ahead
        omega
    · simp only [fitsInt64, Bool.and_eq_true, decide_eq_true_eq] at hstart ⊢
      omega
    · simp only [fitsInt64, Bool.and_eq_true, decide_eq_true_eq] at hstop ⊢
      omega

/-- A sliced range stays between the ends of the range. -/
theorem bounds_of_mem_range (hs : s.step ≠ 0) {j : Int} (h : j ∈ s.range size) : 0 ≤ j ∧ j < size := by
  rcases between_of_mem_intRange hs h with ⟨hpos, hge, hlt⟩ | ⟨hneg, hgt, hle⟩
  · rw [first_of_pos hpos] at hge
    rw [limit_of_pos hpos] at hlt
    have hle : s.getStop size ≤ size := getStop_le
    omega
  · rw [limit_of_neg hneg] at hgt
    rw [first_of_neg hneg] at hle
    omega

theorem natAbs_limit_sub_first_le (s : Slice) (size : Nat) (hs : s.step ≠ 0) :
    (s.limit size - s.first size).natAbs ≤ size := by
  have hstart : s.getStart size ≤ size := getStart_le
  have hstop : s.getStop size ≤ size := getStop_le
  by_cases hpos : 0 < s.step
  · rw [limit_of_pos hpos, first_of_pos hpos]
    omega
  · have hneg : s.step < 0 := by omega
    rw [limit_of_neg hneg, first_of_neg hneg]
    omega

/-- A slice of an array is the slice of the range of its indices. -/
theorem slices (hn : size < 0x8000000000000000) (hs : s.Fits) : s.Slices size := by
  have hlt : ∀ j ∈ s.indices size, j < size := by
    intro j hj
    have hmem : (j : Int) ∈ s.range size := by
      rw [← map_indices hn hs]
      exact List.mem_map_of_mem hj
    have hbounds := bounds_of_mem_range hs.nonzero hmem
    omega
  have hsum : ∀ b : Int, fitsInt64 b = true → b < 0 → fitsInt64 (size + b) = true := by
    intro b hb hneg
    simp only [fitsInt64, Bool.and_eq_true, decide_eq_true_eq] at hb ⊢
    omega
  refine ⟨fun b hb => hsum b (hs.start b hb), fun b hb => hsum b (hs.stop b hb), fitsInt64_getStart hn hs,
    fitsInt64_getStop hn hs, ?_, map_indices hn hs, hlt, ?_⟩
  · simp only [fitsInt64, Bool.and_eq_true, decide_eq_true_eq]
    omega
  · have hle : (s.range size).length ≤ (s.limit size - s.first size).natAbs := intRange_length_le hs.nonzero
    have hspan := natAbs_limit_sub_first_le s size hs.nonzero
    have hlength := congrArg List.length (map_indices hn hs)
    rw [List.length_map] at hlength
    exact hlength ▸ Nat.le_trans hle hspan

end Slice

end PathQuery
