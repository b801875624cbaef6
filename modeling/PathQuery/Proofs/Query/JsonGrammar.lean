import PathQuery.Text.Blank
import PathQuery.Text.Escape

namespace PathQuery.Syntax

/-- Blanks that separate tokens. -/
def Blanks (cs : List Char) : Prop := ∀ c ∈ cs, Text.isSpace c = true

/-- Four hexadecimal digits, and their number. -/
inductive HexUnit : List Char → Nat → Prop
  | mk {c₁ c₂ c₃ c₄ : Char} {d₁ d₂ d₃ d₄ : Nat} (h₁ : Text.hexValue? c₁ = some d₁) (h₂ : Text.hexValue? c₂ = some d₂)
      (h₃ : Text.hexValue? c₃ = some d₃) (h₄ : Text.hexValue? c₄ = some d₄) :
      HexUnit [c₁, c₂, c₃, c₄] (((d₁ * 16 + d₂) * 16 + d₃) * 16 + d₄)

/-- One decimal digit or more. -/
def Digits (cs : List Char) : Prop := cs ≠ [] ∧ ∀ c ∈ cs, c.isDigit = true

/-- The point of a JSON number and the digits behind it, unless it has none. -/
inductive Fraction : List Char → Prop
  | none : Fraction []
  | point {ds : List Char} (hd : Digits ds) : Fraction ('.' :: ds)

/-- The exponent of a JSON number, unless it has none. -/
inductive Exponent : List Char → Prop
  | none : Exponent []
  | mark {e : Char} {sign ds : List Char} (he : e = 'e' ∨ e = 'E') (hs : sign = [] ∨ sign = ['+'] ∨ sign = ['-'])
      (hd : Digits ds) : Exponent (e :: (sign ++ ds))

/-- A JSON number that is not negative. It has no needless zero in front. -/
inductive Unsigned : List Char → Prop
  | mk {whole fraction exponent : List Char} (hw : Digits whole) (hz : whole.head? = some '0' → whole = ['0'])
      (hf : Fraction fraction) (he : Exponent exponent) : Unsigned (whole ++ (fraction ++ exponent))

/-- What stands between the quotes of a JSON string. -/
inductive StringChars : List Char → Prop
  | nil : StringChars []
  | char {c : Char} {cs : List Char} (hq : c ≠ '"') (hb : c ≠ '\\') (hc : 0x20 ≤ c.toNat) (h : StringChars cs) :
      StringChars (c :: cs)
  | short {c d : Char} {cs : List Char} (hc : Text.shortEscape? c = some d) (h : StringChars cs) :
      StringChars ('\\' :: c :: cs)
  | unit {ds cs : List Char} {n : Nat} (hd : HexUnit ds n) (h : StringChars cs) :
      StringChars ('\\' :: 'u' :: (ds ++ cs))

/-- The parts of a JSON text. -/
inductive JsonPart
  | value
  /-- An array or object. -/
  | container
  /-- A value with blanks around it. -/
  | element
  | member
  /-- Parts of one kind, with commas between them. -/
  | list (of : JsonPart)

/-- The grammar of JSON texts. -/
inductive IsJson : JsonPart → List Char → Prop
  | null : IsJson .value ['n', 'u', 'l', 'l']
  | true : IsJson .value ['t', 'r', 'u', 'e']
  | false : IsJson .value ['f', 'a', 'l', 's', 'e']
  | number {cs : List Char} (h : Unsigned cs) : IsJson .value cs
  | negative {cs : List Char} (h : Unsigned cs) : IsJson .value ('-' :: cs)
  | string {cs : List Char} (h : StringChars cs) : IsJson .value ('"' :: (cs ++ ['"']))
  | container {cs : List Char} (h : IsJson .container cs) : IsJson .value cs
  | emptyArray {blanks : List Char} (hb : Blanks blanks) : IsJson .container ('[' :: (blanks ++ [']']))
  | array {cs : List Char} (h : IsJson (.list .element) cs) : IsJson .container ('[' :: (cs ++ [']']))
  | emptyObject {blanks : List Char} (hb : Blanks blanks) : IsJson .container ('\x7b' :: (blanks ++ ['\x7d']))
  | object {cs : List Char} (h : IsJson (.list .member) cs) : IsJson .container ('\x7b' :: (cs ++ ['\x7d']))
  | element {before cs after : List Char} (hb : Blanks before) (h : IsJson .value cs) (ha : Blanks after) :
      IsJson .element (before ++ (cs ++ after))
  | member {before name after cs : List Char} (hb : Blanks before) (hn : StringChars name) (ha : Blanks after)
      (h : IsJson .element cs) : IsJson .member (before ++ ('"' :: (name ++ ['"']) ++ (after ++ ':' :: cs)))
  | last {part : JsonPart} {cs : List Char} (h : IsJson part cs) : IsJson (.list part) cs
  | more {part : JsonPart} {cs ds : List Char} (h : IsJson part cs) (hs : IsJson (.list part) ds) :
      IsJson (.list part) (cs ++ ',' :: ds)

theorem blanks_nil : Blanks [] := by simp [Blanks]

/-- A value with no blanks around it. -/
theorem IsJson.bare {cs : List Char} (h : IsJson .value cs) : IsJson .element cs := by
  have helement := IsJson.element blanks_nil h blanks_nil
  rwa [List.nil_append, List.append_nil] at helement

end PathQuery.Syntax
