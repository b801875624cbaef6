import PathQuery.Proofs.Query.Lexical

namespace PathQuery.Syntax

open Text (hexValue? nameEscape? shortEscape? isHighSurrogate isLowSurrogate joinSurrogates)

/-- A hexadecimal digit of either case. -/
inductive HexDigit : Char → Nat → Prop
  | lower {d : Nat} (h : d < 16) : HexDigit d.digitChar d
  | upper {d : Nat} (h : d < 16) : HexDigit d.digitChar.toUpper d

/-- The last four hexadecimal digits of a number. -/
inductive UnitText (n : Nat) : List Char → Prop
  | mk {c₁ c₂ c₃ c₄ : Char} (h₁ : HexDigit c₁ (n / 4096 % 16)) (h₂ : HexDigit c₂ (n / 256 % 16))
      (h₃ : HexDigit c₃ (n / 16 % 16)) (h₄ : HexDigit c₄ (n % 16)) : UnitText n [c₁, c₂, c₃, c₄]

/-- Characters with their short escapes. -/
def shortEscapes : List (Char × Char) :=
  [('\'', '\''), ('"', '"'), ('\\', '\\'), ('/', '/'), ('\x08', 'b'), ('\x0c', 'f'), ('\n', 'n'), ('\r', 'r'),
    ('\t', 't')]

/-- The ways to write a character behind a backslash. -/
inductive Escaped (c : Char) : List Char → Prop
  | short {e : Char} (h : (c, e) ∈ shortEscapes) : Escaped c [e]
  | unit {digits : List Char} (hc : c.toNat < 0x10000) (h : UnitText c.toNat digits) : Escaped c ('u' :: digits)
  | pair {high low : List Char} (hc : 0x10000 ≤ c.toNat) (hh : UnitText (0xD800 + (c.toNat - 0x10000) / 0x400) high)
      (hl : UnitText (0xDC00 + (c.toNat - 0x10000) % 0x400) low) : Escaped c ('u' :: (high ++ '\\' :: 'u' :: low))

/-- The ways to write a text between quotes. -/
inductive NameText (quote : Char) : List Char → List Char → Prop
  | nil : NameText quote [] []
  | raw {c : Char} {cs text : List Char} (hq : c ≠ quote) (hb : c ≠ '\\') (h : NameText quote cs text) :
      NameText quote (c :: cs) (c :: text)
  | escaped {c : Char} {cs es text : List Char} (he : Escaped c es) (h : NameText quote cs text) :
      NameText quote (c :: cs) ('\\' :: (es ++ text))

section digits

variable {c e : Char} {d n : Nat} {digits : List Char}

theorem hexValue?_lt (h : hexValue? c = some d) : c.toNat < 128 ∧ d < 16 := by
  unfold hexValue? at h
  split at h
  · next hc =>
    cases h
    have hcode : 48 ≤ c.toNat ∧ c.toNat ≤ 57 := Char.isDigit_iff_toNat.1 hc
    have hzero : '0'.toNat = 48 := rfl
    omega
  split at h
  · next hc =>
    cases h
    have hle : 'a' ≤ c ∧ c ≤ 'f' := by simpa using hc
    have hcode : 97 ≤ c.toNat ∧ c.toNat ≤ 102 := hle
    have ha : 'a'.toNat = 97 := rfl
    omega
  split at h
  · next hc =>
    cases h
    have hle : 'A' ≤ c ∧ c ≤ 'F' := by simpa using hc
    have hcode : 65 ≤ c.toNat ∧ c.toNat ≤ 70 := hle
    have ha : 'A'.toNat = 65 := rfl
    omega
  · cases h

theorem hexValue?_eq_some_iff : hexValue? c = some d ↔ HexDigit c d := by
  constructor
  · have hall : ∀ n, n < 128 → ∀ d < 16, hexValue? (Char.ofNat n) = some d →
        Char.ofNat n = d.digitChar ∨ Char.ofNat n = d.digitChar.toUpper := by decide
    intro h
    obtain ⟨hc, hd⟩ := hexValue?_lt h
    have hdigit := hall c.toNat hc d hd
    rw [Char.ofNat_toNat] at hdigit
    rcases hdigit h with rfl | rfl
    · exact .lower hd
    · exact .upper hd
  · have hupper : ∀ d, d < 16 → hexValue? d.digitChar.toUpper = some d := by decide
    intro h
    cases h with
    | lower h => exact Text.hexValue?_digitChar d h
    | upper h => exact hupper d h

theorem hexUnit_iff : HexUnit digits n ↔ UnitText n digits ∧ n < 0x10000 := by
  constructor
  · rintro ⟨h₁, h₂, h₃, h₄⟩
    rename_i d₁ d₂ d₃ d₄
    have hd₁ := (hexValue?_lt h₁).2
    have hd₂ := (hexValue?_lt h₂).2
    have hd₃ := (hexValue?_lt h₃).2
    have hd₄ := (hexValue?_lt h₄).2
    rw [hexValue?_eq_some_iff] at h₁ h₂ h₃ h₄
    refine ⟨.mk ?_ ?_ ?_ ?_, by omega⟩
    · rwa [show (((d₁ * 16 + d₂) * 16 + d₃) * 16 + d₄) / 4096 % 16 = d₁ by omega]
    · rwa [show (((d₁ * 16 + d₂) * 16 + d₃) * 16 + d₄) / 256 % 16 = d₂ by omega]
    · rwa [show (((d₁ * 16 + d₂) * 16 + d₃) * 16 + d₄) / 16 % 16 = d₃ by omega]
    · rwa [show (((d₁ * 16 + d₂) * 16 + d₃) * 16 + d₄) % 16 = d₄ by omega]
  · rintro ⟨⟨h₁, h₂, h₃, h₄⟩, hn⟩
    have hvalue : ((n / 4096 % 16 * 16 + n / 256 % 16) * 16 + n / 16 % 16) * 16 + n % 16 = n := by omega
    have hunit := HexUnit.mk (hexValue?_eq_some_iff.2 h₁) (hexValue?_eq_some_iff.2 h₂) (hexValue?_eq_some_iff.2 h₃)
      (hexValue?_eq_some_iff.2 h₄)
    rwa [hvalue] at hunit

theorem nameEscape?_eq_some_iff : nameEscape? e = some c ↔ (c, e) ∈ shortEscapes := by
  constructor
  · intro h
    unfold nameEscape? shortEscape? at h
    split at h
    · next he =>
      cases h
      rw [he]
      decide
    · split at h <;> cases h <;> decide
  · have hall : ∀ p ∈ shortEscapes, nameEscape? p.2 = some p.1 := by decide
    exact hall (c, e)

/-- The code of a character is no surrogate. -/
theorem code_spec (c : Char) : c.toNat < 0xD800 ∨ 0xDFFF < c.toNat ∧ c.toNat < 0x110000 := c.valid

theorem toNat_ofNat (h : n < 0xD800 ∨ 0xDFFF < n ∧ n < 0x110000) : (Char.ofNat n).toNat = n := by
  rw [Char.ofNat, dif_pos h]
  rfl

theorem joinSurrogates_eq (m n : Nat) : joinSurrogates m n = 0x10000 + (m - 0xD800) * 0x400 + (n - 0xDC00) := rfl

theorem isHighSurrogate_iff : isHighSurrogate n = true ↔ 0xD800 ≤ n ∧ n < 0xDC00 := by simp [isHighSurrogate]

theorem isLowSurrogate_iff : isLowSurrogate n = true ↔ 0xDC00 ≤ n ∧ n < 0xE000 := by simp [isLowSurrogate]

theorem not_surrogate_iff : isHighSurrogate n = false ∧ isLowSurrogate n = false ↔ n < 0xD800 ∨ 0xDFFF < n := by
  rw [← Bool.not_eq_true, ← Bool.not_eq_true, isHighSurrogate_iff, isLowSurrogate_iff]
  omega

end digits

variable {quote c : Char} {es cs text : List Char}

theorem escapeText_iff : EscapeText es c ↔ Escaped c es := by
  constructor
  · rintro (⟨h⟩ | ⟨h, hh, hl⟩ | ⟨hm, hn, hh, hl⟩)
    · exact .short (nameEscape?_eq_some_iff.1 h)
    · rename_i digits n
      obtain ⟨hunit, hn⟩ := hexUnit_iff.1 h
      have hcode : (Char.ofNat n).toNat = n := by
        refine toNat_ofNat ?_
        have hsurrogate := not_surrogate_iff.1 ⟨hh, hl⟩
        omega
      refine .unit ?_ ?_
      · rwa [hcode]
      · rwa [hcode]
    · rename_i high low m n
      rw [isHighSurrogate_iff] at hh
      rw [isLowSurrogate_iff] at hl
      have hjoin := joinSurrogates_eq m n
      have hcode : (Char.ofNat (joinSurrogates m n)).toNat = joinSurrogates m n := toNat_ofNat (by omega)
      have hhigh : 0xD800 + (joinSurrogates m n - 0x10000) / 0x400 = m := by omega
      have hlow : 0xDC00 + (joinSurrogates m n - 0x10000) % 0x400 = n := by omega
      refine .pair ?_ ?_ ?_
      · rw [hcode]
        omega
      · rw [hcode, hhigh]
        exact (hexUnit_iff.1 hm).1
      · rw [hcode, hlow]
        exact (hexUnit_iff.1 hn).1
  · rintro (⟨h⟩ | ⟨hc, h⟩ | ⟨hc, hh, hl⟩)
    · exact .short (nameEscape?_eq_some_iff.2 h)
    · have hcode := code_spec c
      obtain ⟨hhigh, hlow⟩ := (not_surrogate_iff (n := c.toNat)).2 (by omega)
      have hescape := EscapeText.unit (hexUnit_iff.2 ⟨h, hc⟩) hhigh hlow
      rwa [Char.ofNat_toNat] at hescape
    · have hcode := code_spec c
      have hescape := EscapeText.pair (hexUnit_iff.2 ⟨hh, by omega⟩) (hexUnit_iff.2 ⟨hl, by omega⟩)
        (isHighSurrogate_iff.2 (by omega)) (isLowSurrogate_iff.2 (by omega))
      have hjoin : joinSurrogates (0xD800 + (c.toNat - 0x10000) / 0x400) (0xDC00 + (c.toNat - 0x10000) % 0x400) =
          c.toNat := by
        have hjoin := joinSurrogates_eq (0xD800 + (c.toNat - 0x10000) / 0x400) (0xDC00 + (c.toNat - 0x10000) % 0x400)
        omega
      rwa [hjoin, Char.ofNat_toNat] at hescape

/-- What is spelled between quotes is what can be written there. -/
theorem spells_iff : Spells quote text cs ↔ NameText quote cs text := by
  constructor
  · intro h
    induction h with
    | nil => exact .nil
    | char hq hb _ ih => exact .raw hq hb ih
    | escape he _ ih => exact .escaped (escapeText_iff.1 he) ih
  · intro h
    induction h with
    | nil => exact .nil
    | raw hq hb _ ih => exact .char hq hb ih
    | escaped he _ ih => exact .escape (escapeText_iff.2 he) ih

end PathQuery.Syntax
