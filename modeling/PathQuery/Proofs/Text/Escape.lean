import PathQuery.Text.Escape

namespace PathQuery.Text

/-- Some characters complete an escape that stands for a character. -/
inductive Escape.Reads (short : Char → Option Char) : Escape → List Char → Char → Prop
  | last {e : Escape} {c d : Char} : e.next short c = .char d → Reads short e [c] d
  | more {e f : Escape} {c d : Char} {cs : List Char} :
    e.next short c = .more f → Reads short f cs d → Reads short e (c :: cs) d

theorem hexValue?_digitChar : ∀ n, n < 16 → hexValue? n.digitChar = some n := by decide

theorem hexValue?_hexDigit (n : Nat) : hexValue? (hexDigit n) = some (n % 16) :=
  hexValue?_digitChar _ (Nat.mod_lt _ (by decide))

namespace Escape

variable {short : Char → Option Char}

theorem next_backslash {c d : Char} (hu : c ≠ 'u') (h : short c = some d) : backslash.next short c = .char d := by
  simp only [next, if_neg hu, h]

theorem next_unit {digits code d : Nat} {c : Char} (hd : digits < 3) (h : hexValue? c = some d) :
    (unit digits code).next short c = .more (unit (digits + 1) (code * 16 + d)) := by
  simp only [next, h, if_pos hd]

theorem next_pairUnit {high digits code d : Nat} {c : Char} (hd : digits < 3) (h : hexValue? c = some d) :
    (pairUnit high digits code).next short c = .more (pairUnit high (digits + 1) (code * 16 + d)) := by
  simp only [next, h, if_pos hd]

/-- The last digit of a unit that is no surrogate. -/
theorem next_unit_last {code d : Nat} {c : Char} (h : hexValue? c = some d) (hs : code * 16 + d < 0xD800) :
    (unit 3 code).next short c = .char (Char.ofNat (code * 16 + d)) := by
  have hhigh : isHighSurrogate (code * 16 + d) = false := by
    simp only [isHighSurrogate, Bool.and_eq_false_iff, decide_eq_false_iff_not]
    omega
  have hlow : isLowSurrogate (code * 16 + d) = false := by
    simp only [isLowSurrogate, Bool.and_eq_false_iff, decide_eq_false_iff_not]
    omega
  simp only [next, h, hhigh, hlow, Nat.lt_irrefl, if_false, Bool.false_eq_true]

theorem reads_controlEscape {c : Char} (hc : c.toNat < 0x20) :
    Reads short backslash (controlEscape c).tail c := by
  have hzero : hexValue? '0' = some 0 := rfl
  have hhigh := hexValue?_hexDigit (c.toNat / 16)
  have hlow := hexValue?_hexDigit c.toNat
  have hvalue : ((0 * 16 + 0) * 16 + 0) * 16 + c.toNat / 16 % 16 = c.toNat / 16 := by omega
  have hcode : c.toNat / 16 * 16 + c.toNat % 16 = c.toNat := by omega
  have hlast : (unit 3 (c.toNat / 16)).next short (hexDigit c.toNat) = .char c := by
    rw [next_unit_last hlow (by omega), hcode, Char.ofNat_toNat]
  refine .more (f := unit 0 0) rfl (.more (next_unit (by decide) hzero) (.more (next_unit (by decide) hzero) ?_))
  refine .more (next_unit (by decide) hhigh) ?_
  rw [hvalue]
  exact .last hlast

end Escape

/-- A character in quotes is written as itself, or its escape is that of the quote, a short one or that of a control
character. -/
theorem escapeChar_cases (quote c : Char) :
    (escapeChar quote c = [c] ∧ c ≠ quote ∧ c ≠ '\\') ∨ (escapeChar quote c = ['\\', quote] ∧ c = quote) ∨
      (∃ e, escapeChar quote c = ['\\', e] ∧ shortEscape? e = some c) ∨
        escapeChar quote c = controlEscape c ∧ c.toNat < 0x20 := by
  unfold escapeChar
  split
  · next h =>
    have hc : c = quote ∨ c = '\\' := by simpa using h
    rcases hc with rfl | rfl
    · exact .inr (.inl ⟨rfl, rfl⟩)
    · exact .inr (.inr (.inl ⟨_, rfl, rfl⟩))
  split
  · next h => exact .inr (.inr (.inl ⟨_, rfl, h ▸ rfl⟩))
  split
  · next h => exact .inr (.inr (.inl ⟨_, rfl, h ▸ rfl⟩))
  split
  · next h => exact .inr (.inr (.inl ⟨_, rfl, h ▸ rfl⟩))
  split
  · next h => exact .inr (.inr (.inl ⟨_, rfl, h ▸ rfl⟩))
  split
  · next h => exact .inr (.inr (.inl ⟨_, rfl, h ▸ rfl⟩))
  split
  · next h => exact .inr (.inr (.inr ⟨rfl, h⟩))
  · next h _ _ _ _ _ _ =>
    have hne : c ≠ quote ∧ c ≠ '\\' := by simpa using h
    exact .inl ⟨rfl, hne.1, hne.2⟩

theorem ne_of_shortEscape? {c d : Char} (h : shortEscape? c = some d) : c ≠ 'u' := by
  rintro rfl
  cases h

variable {short : Char → Option Char} {quote : Char}

/-- What is written in quotes is read back by a reader that knows the short escapes and that of the quote. -/
theorem escapeChar_reads (hu : quote ≠ 'u') (hq : short quote = some quote)
    (hs : ∀ c d, shortEscape? c = some d → short c = some d) (c : Char) :
    (escapeChar quote c = [c] ∧ c ≠ quote ∧ c ≠ '\\') ∨
      ∃ cs, escapeChar quote c = '\\' :: cs ∧ Escape.Reads short .backslash cs c := by
  obtain h | ⟨h, rfl⟩ | ⟨e, h, he⟩ | ⟨h, hc⟩ := escapeChar_cases quote c
  · exact .inl h
  · exact .inr ⟨_, h, .last (Escape.next_backslash hu hq)⟩
  · exact .inr ⟨_, h, .last (Escape.next_backslash (ne_of_shortEscape? he) (hs e c he))⟩
  · exact .inr ⟨_, h, Escape.reads_controlEscape hc⟩

theorem nameEscape?_of_shortEscape? (c d : Char) (h : shortEscape? c = some d) : nameEscape? c = some d := by
  have hne : c ≠ '\'' := by
    intro he
    subst he
    cases h
  rw [nameEscape?, if_neg hne, h]

/-- Normalized paths and member names are read with the escapes with which they are written. -/
theorem escapeChar_reads_name (c : Char) :
    (escapeChar '\'' c = [c] ∧ c ≠ '\'' ∧ c ≠ '\\') ∨
      ∃ cs, escapeChar '\'' c = '\\' :: cs ∧ Escape.Reads nameEscape? .backslash cs c := by
  have hq : nameEscape? '\'' = some '\'' := rfl
  exact escapeChar_reads (by decide) hq nameEscape?_of_shortEscape? c

/-- Of the texts that begin alike, only one is an escape from its first character on. -/
theorem Escape.Reads.unique {e : Escape} {cs cs' r r' : List Char} {c c' : Char} (h : Reads short e cs c)
    (h' : Reads short e cs' c') (hr : cs ++ r = cs' ++ r') : c = c' ∧ r = r' := by
  induction h generalizing cs' with
  | @last e a c hn =>
    cases h' with
    | last hn' =>
      obtain ⟨rfl, rfl⟩ := List.cons.inj hr
      rw [hn] at hn'
      cases hn'
      exact ⟨rfl, rfl⟩
    | more hn' _ =>
      obtain ⟨rfl, -⟩ := List.cons.inj hr
      rw [hn] at hn'
      cases hn'
  | @more e f a c cs hn _ ih =>
    cases h' with
    | last hn' =>
      obtain ⟨rfl, -⟩ := List.cons.inj hr
      rw [hn] at hn'
      cases hn'
    | more hn' h' =>
      obtain ⟨rfl, hrest⟩ := List.cons.inj hr
      rw [hn] at hn'
      cases hn'
      exact ih h' hrest

theorem escapeChar_ne_quote (c : Char) (r r' : List Char) : escapeChar '\'' c ++ r ≠ '\'' :: r' := by
  intro h
  obtain ⟨he, hne, -⟩ | ⟨cs, he, -⟩ := escapeChar_reads_name c
  · rw [he] at h
    exact hne (List.cons.inj h).1
  · rw [he] at h
    cases h

theorem escapeChar_append_inj {c d : Char} {r r' : List Char}
    (h : escapeChar '\'' c ++ r = escapeChar '\'' d ++ r') : c = d ∧ r = r' := by
  obtain ⟨hc, -, hb⟩ | ⟨cs, hc, hreads⟩ := escapeChar_reads_name c <;>
    obtain ⟨hd, -, hb'⟩ | ⟨cs', hd, hreads'⟩ := escapeChar_reads_name d <;> rw [hc, hd] at h
  · simpa using h
  · exact absurd (List.cons.inj h).1 hb
  · exact absurd (List.cons.inj h).1.symm hb'
  · exact hreads.unique hreads' (List.cons.inj h).2

/-- The quote behind a name in quotes is the first that does not belong to it. -/
theorem escape_append_inj {s t r r' : List Char}
    (h : escape '\'' s ++ '\'' :: r = escape '\'' t ++ '\'' :: r') : s = t ∧ r = r' := by
  induction s generalizing t with
  | nil =>
    cases t with
    | nil => exact ⟨rfl, (List.cons.inj h).2⟩
    | cons d t =>
      rw [escape, escape, List.flatMap_cons, List.append_assoc] at h
      exact absurd h.symm (escapeChar_ne_quote d _ _)
  | cons c s ih =>
    rw [escape, List.flatMap_cons, List.append_assoc, ← escape] at h
    cases t with
    | nil => exact absurd h (escapeChar_ne_quote c _ _)
    | cons d t =>
      rw [escape, escape, List.flatMap_cons, List.append_assoc] at h
      obtain ⟨rfl, hrest⟩ := escapeChar_append_inj h
      obtain ⟨rfl, hr⟩ := ih hrest
      exact ⟨rfl, hr⟩

end PathQuery.Text
