namespace PathQuery

/-- The number `digits · 10 ^ exponent`. -/
structure Decimal where
  digits : Nat
  exponent : Int

/-- The number a list of decimal digits stands for. -/
def natOfDigits (cs : List Char) : Nat :=
  cs.foldl (fun n c => 10 * n + (c.toNat - '0'.toNat)) 0

/-- A decimal integer without sign. -/
def readNat? (cs : List Char) : Option Nat :=
  if cs.isEmpty || !cs.all Char.isDigit then none else some (natOfDigits cs)

/-- A decimal integer, with a sign of either kind or without. -/
def readInt? : List Char → Option Int
  | '+' :: ds => (readNat? ds).map Int.ofNat
  | '-' :: ds => (readNat? ds).map fun n => -(n : Int)
  | ds => (readNat? ds).map Int.ofNat

/-- How many decimal digits a number has. -/
def digitCount (n : Nat) : Nat := (Nat.toDigits 10 n).length

namespace Decimal

/-- The nearest double. Magnitudes far outside the range of doubles are decided without computing the power. -/
def toFloat (d : Decimal) : Float :=
  let magnitude := digitCount d.digits + d.exponent
  if d.digits = 0 then 0
  else if magnitude > 320 then 1 / 0
  else if magnitude < -340 then 0
  else Float.ofScientific d.digits (decide (d.exponent < 0)) d.exponent.natAbs

/-- The written parts of an unsigned decimal. A fraction is present as soon as there is a point. -/
structure Parts where
  whole : List Char
  fraction : Option (List Char)
  exponent : Option Int

namespace Parts

/-- Splits an unsigned decimal text into its parts; digits may be missing on either side of the point. -/
def ofText? (cs : List Char) : Option Parts :=
  let whole := cs.takeWhile Char.isDigit
  let rest := cs.dropWhile Char.isDigit
  let (fraction, rest) := match rest with
    | '.' :: ds => (some (ds.takeWhile Char.isDigit), ds.dropWhile Char.isDigit)
    | _ => (none, rest)
  match rest with
  | [] => some ⟨whole, fraction, none⟩
  | c :: ds =>
    if c = 'e' || c = 'E' then (readInt? ds).map (⟨whole, fraction, some ·⟩) else none

/-- No digit at all stands before the exponent. -/
def isBare (p : Parts) : Bool := p.whole.isEmpty && (p.fraction.getD []).isEmpty

def isInteger (p : Parts) : Bool := p.fraction.isNone && p.exponent.isNone

def toDecimal (p : Parts) : Decimal :=
  let fraction := p.fraction.getD []
  ⟨natOfDigits (p.whole ++ fraction), p.exponent.getD 0 - fraction.length⟩

end Parts

end Decimal

end PathQuery
