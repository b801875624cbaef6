import PathQuery.Json.Value

namespace PathQuery

/-- The place that an index names in an array of `size` elements; a negative index counts from the end. -/
def resolveIndex? (i : Int) (size : Nat) : Option Nat :=
  let k := if i < 0 then size + i else i
  if 0 ≤ k && k < size then some k.toNat else none

theorem eq_of_int64? {n k : Int} (h : int64? n = some k) : k = n := by
  unfold int64? at h
  split at h
  · exact (Option.some.inj h).symm
  · cases h

/-- `i`, `i + step`, … below `stop`. A sum that does not fit into 64 bits ends it too. -/
def upward (stop : Int) {step : Int} (hs : 0 < step) (i : Int) : List Nat :=
  if i < stop then
    i.toNat :: match _h : int64? (i + step) with
      | some next => upward stop hs next
      | none => []
  else []
termination_by (stop - i).toNat
decreasing_by
  have hnext := eq_of_int64? _h
  omega

/-- The same for a negative step: `i`, `i + step`, … above `stop`, without what is below zero. -/
def downward (stop : Int) {step : Int} (hs : step < 0) (i : Int) : List Nat :=
  if stop < i then
    (if 0 ≤ i then [i.toNat] else []) ++ match _h : int64? (i + step) with
      | some next => downward stop hs next
      | none => []
  else []
termination_by (i - stop).toNat
decreasing_by
  have hnext := eq_of_int64? _h
  omega

/-- A slice. A bound may be missing or count from the end. -/
structure Slice where
  start : Option Int
  stop : Option Int
  step : Int
  deriving DecidableEq

namespace Slice

/-- A bound counted from the front, at most `size`. -/
def clamp (size : Nat) (bound : Int) : Int := min (if bound < 0 then size + bound else bound) size

/-- Where a slice starts, before it is fitted to its direction. -/
def getStart (s : Slice) (size : Nat) : Int :=
  match s.start with
  | some bound => clamp size bound
  | none => if 0 ≤ s.step then 0 else size

/-- Where a slice stops, before it is fitted to its direction. -/
def getStop (s : Slice) (size : Nat) : Int :=
  match s.stop with
  | some bound => clamp size bound
  | none => if 0 ≤ s.step then size else -1

/-- The indices that a slice selects from an array of `size` elements. -/
def indices (s : Slice) (size : Nat) : List Nat :=
  let start := s.getStart size
  let stop := s.getStop size
  if hs : 0 < s.step then upward stop hs (max start 0)
  else if hs : s.step < 0 then downward (max stop (-1)) hs (if size ≤ start then size - 1 else start)
  else []

end Slice

end PathQuery
