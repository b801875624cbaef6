import PathQuery.Json.Value
import PathQuery.Decimal.Shortest

namespace PathQuery.Number

/-- Takes digits into a significand of at most 64 bits, up to the first that does not fit; the others are left. -/
def takeDigits (n : Nat) : List Char → Nat × List Char
  | [] => (n, [])
  | c :: cs =>
    let more := 10 * n + (c.toNat - '0'.toNat)
    if fitsUInt64 more then takeDigits more cs else (n, c :: cs)

/-- `x · 10 ^ exponent`, unless it is infinite. The powers up to `10 ^ 308` are doubles; for a smaller number it is
divided more than once. -/
def scale? (x : Float) (exponent : Int) : Option Float :=
  if exponent.natAbs ≤ 308 then
    let power := Float.ofScientific 1 false exponent.natAbs
    let scaled := if 0 ≤ exponent then x * power else x / power
    if scaled.isInf then none else some scaled
  else if x == 0 then some x
  else if 0 ≤ exponent then none
  else scale? (x / Float.ofScientific 1 false 308) (exponent + 308)
termination_by exponent.natAbs

/-- A double. Its significand is rounded before it is scaled, and scaling rounds again, so this need not be the nearest
double. -/
def ofParts? (negative : Bool) (p : Decimal.Parts) : Option Number :=
  let fraction := p.fraction.getD []
  let (n, whole) := takeDigits 0 p.whole
  let (n, rest) := takeDigits n fraction
  let exponent := p.exponent.getD 0 + whole.length - (fraction.length - rest.length)
  (scale? (nearestFloat n) exponent).map fun x => .float (if negative then -x else x)

/-- An integer of at most 64 bits. Minus zero is none. -/
def ofInteger? (negative : Bool) (n : Nat) : Option Number :=
  if negative then
    if n = 0 || !fitsInt64 (-n) then none else some (.int (-n))
  else if fitsUInt64 n then some (.int n) else none

/-- An unsigned JSON number: no needless leading zero, and digits on both sides of a point. What is not an integer of at
most 64 bits is read as a double. -/
def ofUnsigned? (negative : Bool) (cs : List Char) : Option Number :=
  match Decimal.Parts.ofText? cs with
  | none => none
  | some p =>
    if p.whole.isEmpty || (p.whole.head? == some '0' && p.whole.length > 1) || p.fraction == some [] then none
    else
      let n? := if p.isInteger then ofInteger? negative (natOfDigits p.whole) else none
      n?.or (ofParts? negative p)

/-- Reads a JSON number. A number too large for a double is refused. -/
def ofText? : List Char → Option Number
  | '-' :: cs => ofUnsigned? true cs
  | cs => ofUnsigned? false cs

/-- Lays out a decimal with digits on both sides of a point when its leading exponent is between -5 and 15,
and otherwise with one digit before the point, an exponent and its sign. -/
def layout (d : Decimal) : String :=
  let digits := Nat.toDigits 10 d.digits
  let point : Int := digits.length + d.exponent
  let zeros (n : Int) := List.replicate n.toNat '0'
  String.ofList <|
    if 0 ≤ d.exponent && point ≤ 16 then digits ++ zeros d.exponent ++ ['.', '0']
    else if 0 < point && point ≤ 16 then digits.take point.toNat ++ '.' :: digits.drop point.toNat
    else if -5 < point && point ≤ 0 then '0' :: '.' :: zeros (-point) ++ digits
    else
      digits.take 1 ++ (if digits.length > 1 then '.' :: digits.drop 1 else [])
        ++ 'e' :: (if point ≤ 0 then '-' else '+') :: Nat.toDigits 10 (point - 1).natAbs

def floatText (x : Float) : String :=
  let magnitude := if x.abs == 0 then "0.0" else layout (Decimal.shortest x.toBits)
  if x.toBits >= 0x8000000000000000 then "-" ++ magnitude else magnitude

def text : Number → String
  | int n => n.repr
  | float x => floatText x

end PathQuery.Number
