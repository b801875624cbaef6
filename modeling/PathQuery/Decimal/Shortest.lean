import PathQuery.Decimal.Basic

namespace PathQuery

/-- A positive double and the interval of reals that round to it, as multiples of `1 / den`. -/
structure Rounding where
  low : Nat
  mid : Nat
  high : Nat
  den : Nat
  closed : Bool

namespace Rounding

/-- The interval of the double with these bits, its sign left out. Below a power of two the gap is half as wide. -/
def ofBits (bits : UInt64) : Rounding :=
  let fraction : Nat := bits.toNat % Nat.pow 2 52
  let biased : Nat := bits.toNat / Nat.pow 2 52 % Nat.pow 2 11
  let m := if biased = 0 then fraction else Nat.pow 2 52 + fraction
  let q : Int := if biased = 0 then -1074 else biased - 1075
  let below := if fraction = 0 && biased > 1 then 1 else 2
  let scale : Nat := Nat.pow 2 (q - 2).toNat
  ⟨(4 * m - below) * scale, 4 * m * scale, (4 * m + 2) * scale, Nat.pow 2 (2 - q).toNat, m % 2 == 0⟩

def contains (r : Rounding) (n : Nat) : Bool :=
  if r.closed then r.low ≤ n && n ≤ r.high else r.low < n && n < r.high

def scaleBy (r : Rounding) (k : Nat) : Rounding :=
  ⟨r.low * k, r.mid * k, r.high * k, r.den, r.closed⟩

/-- The multiple of `unit` in the interval that is nearest to its double; of two equally near the even one. Only the two
neighbours of the double can be it. -/
def nearest? (r : Rounding) (unit : Nat) : Option Nat :=
  let d := r.mid / unit
  let rest := r.mid % unit
  match r.contains (d * unit), r.contains ((d + 1) * unit) with
  | true, true =>
    some (if 2 * rest < unit then d else if unit < 2 * rest then d + 1 else if d % 2 = 0 then d else d + 1)
  | true, false => some d
  | false, true => some (d + 1)
  | false, false => none

/-- The nearest multiple of `10 ^ k` in the interval. -/
def onGrid? (r : Rounding) (k : Int) : Option Nat :=
  (r.scaleBy (Nat.pow 10 (-k).toNat)).nearest? (r.den * Nat.pow 10 k.toNat)

/-- The exponent of the leading decimal digit. -/
def leading (r : Rounding) : Int :=
  if r.den ≤ r.mid then digitCount (r.mid / r.den) - 1
  else
    let places := digitCount r.den - digitCount r.mid
    if r.den ≤ r.mid * Nat.pow 10 places then -places else -places - 1

end Rounding

namespace Decimal

/-- The decimal with the fewest digits among those that read back to a positive double, nearest first. -/
def shortest (bits : UInt64) : Decimal :=
  let r := Rounding.ofBits bits
  let top := r.leading
  let onGrid (places : Nat) : Option Decimal :=
    let k := top - places
    (r.onGrid? k).map fun d => if d % 10 = 0 then ⟨d / 10, k + 1⟩ else ⟨d, k⟩
  ((List.range 17).findSome? onGrid).getD ⟨0, 0⟩

end Decimal

end PathQuery
