import PathQuery.Proofs.Location.Grammar

namespace PathQuery.Location

variable {loose : Bool} {cs rest : List Char} {c : Char} {s : Step} {l m : Location} {ss : List Step}
  {p : Text.Position} {form : Form} {quote : Char} {read : List Char}

section escapes

open Text.Escape (Reads)
open Syntax (HexUnit EscapeText)

variable {short : Char → Option Char} {e : Text.Escape} {x : Char}

/-- The first character of an escape completes it or leads on. -/
theorem reads_cases (h : Reads short e cs x) : ∃ c rest, cs = c :: rest ∧
    ((e.next short c = .char x ∧ rest = []) ∨ ∃ f, e.next short c = .more f ∧ Reads short f rest x) := by
  cases h with
  | last h => exact ⟨_, [], rfl, .inl ⟨h, rfl⟩⟩
  | more h hr => exact ⟨_, _, rfl, .inr ⟨_, h, hr⟩⟩

/-- One of the first three digits of a unit. -/
theorem reads_digit {unit : Nat → Nat → Text.Escape} {k code : Nat}
    (hunit : ∀ c, (unit k code).next short c = match Text.hexValue? c with
      | none => .stray
      | some d => .more (unit (k + 1) (code * 16 + d))) (h : Reads short (unit k code) cs x) :
    ∃ c d rest, cs = c :: rest ∧ Text.hexValue? c = some d ∧ Reads short (unit (k + 1) (code * 16 + d)) rest x := by
  obtain ⟨c, rest, rfl, hc⟩ := reads_cases h
  rw [hunit] at hc
  cases hd : Text.hexValue? c with
  | none =>
    rw [hd] at hc
    obtain ⟨hc, -⟩ | ⟨f, hc, -⟩ := hc <;> cases hc
  | some d =>
    rw [hd] at hc
    obtain ⟨hc, -⟩ | ⟨f, hc, hr⟩ := hc
    · cases hc
    · cases hc
      exact ⟨c, d, rest, rfl, hd, hr⟩

/-- The digits of a unit: three of them, and one that decides what comes next. -/
theorem reads_unit (unit : Nat → Nat → Text.Escape)
    (hunit : ∀ k code c, k < 3 → (unit k code).next short c = match Text.hexValue? c with
      | none => .stray
      | some d => .more (unit (k + 1) (code * 16 + d)))
    (hlast : ∀ code c, Text.hexValue? c = none → (unit 3 code).next short c = .stray)
    (h : Reads short (unit 0 0) cs x) :
    ∃ digits rest code c d, cs = digits ++ rest ∧ HexUnit digits (code * 16 + d) ∧ Text.hexValue? c = some d ∧
      (((unit 3 code).next short c = .char x ∧ rest = []) ∨
        ∃ f, (unit 3 code).next short c = .more f ∧ Reads short f rest x) := by
  obtain ⟨c₁, d₁, _, rfl, h₁, hr₁⟩ := reads_digit (fun c => hunit 0 0 c (by decide)) h
  obtain ⟨c₂, d₂, _, rfl, h₂, hr₂⟩ := reads_digit (fun c => hunit 1 _ c (by decide)) hr₁
  obtain ⟨c₃, d₃, _, rfl, h₃, hr₃⟩ := reads_digit (fun c => hunit 2 _ c (by decide)) hr₂
  obtain ⟨c₄, rest, rfl, hr₄⟩ := reads_cases hr₃
  rw [Nat.zero_mul, Nat.zero_add] at hr₄
  cases h₄ : Text.hexValue? c₄ with
  | none =>
    rw [hlast _ _ h₄] at hr₄
    obtain ⟨hc, -⟩ | ⟨f, hf, -⟩ := hr₄
    · cases hc
    · cases hf
  | some d₄ => exact ⟨[c₁, c₂, c₃, c₄], rest, _, c₄, d₄, rfl, .mk h₁ h₂ h₃ h₄, h₄, hr₄⟩

/-- The second unit of a pair. -/
theorem hexUnit_of_pairUnit {m : Nat} (h : Reads short (.pairUnit m 0 0) cs x) :
    ∃ n, HexUnit cs n ∧ Text.isLowSurrogate n = true ∧ x = Char.ofNat (Text.joinSurrogates m n) := by
  obtain ⟨digits, rest, code, c, d, rfl, hdigits, hd, hr⟩ := reads_unit (.pairUnit m)
    (fun k code c hk => by cases hc : Text.hexValue? c <;> simp [Text.Escape.next, hc, hk])
    (fun code c hc => by simp only [Text.Escape.next, hc]) h
  cases hlow : Text.isLowSurrogate (code * 16 + d) with
  | false => simp [Text.Escape.next, hd, hlow] at hr
  | true =>
    obtain ⟨rfl, rfl⟩ : Char.ofNat (Text.joinSurrogates m (code * 16 + d)) = x ∧ rest = [] := by
      simpa [Text.Escape.next, hd, hlow] using hr
    rw [List.append_nil]
    exact ⟨_, hdigits, hlow, rfl⟩

/-- What stands behind a high surrogate. -/
theorem hexUnit_of_pair {m : Nat} (h : Reads short (.pair m) cs x) :
    ∃ ds n, cs = '\\' :: 'u' :: ds ∧ HexUnit ds n ∧ Text.isLowSurrogate n = true ∧
      x = Char.ofNat (Text.joinSurrogates m n) := by
  obtain ⟨b, rest, rfl, hb⟩ := reads_cases h
  by_cases hbackslash : b = '\\'
  · obtain ⟨f, hf, hr⟩ : ∃ f, Text.Escape.pairBackslash m = f ∧ Reads short f rest x := by
      simpa [Text.Escape.next, hbackslash] using hb
    subst hf
    obtain ⟨u, ds, rfl, hu⟩ := reads_cases hr
    by_cases hunit : u = 'u'
    · obtain ⟨f, hf, hr⟩ : ∃ f, Text.Escape.pairUnit m 0 0 = f ∧ Reads short f ds x := by
        simpa [Text.Escape.next, hunit] using hu
      subst hf
      obtain ⟨n, hn⟩ := hexUnit_of_pairUnit hr
      exact ⟨ds, n, by rw [hbackslash, hunit], hn⟩
    · simp [Text.Escape.next, hunit] at hu
  · simp [Text.Escape.next, hbackslash] at hb

/-- What is read as an escape is one of the escapes of names. -/
theorem escapeText_of_reads (h : Reads Text.nameEscape? .backslash cs x) : EscapeText cs x := by
  obtain ⟨c, rest, rfl, hc⟩ := reads_cases h
  by_cases hu : c = 'u'
  · subst hu
    obtain ⟨f, hf, hr⟩ : ∃ f, Text.Escape.unit 0 0 = f ∧ Reads Text.nameEscape? f rest x := by
      simpa [Text.Escape.next] using hc
    subst hf
    obtain ⟨digits, rest, code, c, d, rfl, hdigits, hd, hr⟩ := reads_unit .unit
      (fun k code c hk => by cases hc : Text.hexValue? c <;> simp [Text.Escape.next, hc, hk])
      (fun code c hc => by simp only [Text.Escape.next, hc]) hr
    cases hhigh : Text.isHighSurrogate (code * 16 + d) with
    | false =>
      cases hlow : Text.isLowSurrogate (code * 16 + d) with
      | true => simp [Text.Escape.next, hd, hhigh, hlow] at hr
      | false =>
        obtain ⟨rfl, rfl⟩ : Char.ofNat (code * 16 + d) = x ∧ rest = [] := by
          simpa [Text.Escape.next, hd, hhigh, hlow] using hr
        rw [List.append_nil]
        exact .unit hdigits hhigh hlow
    | true =>
      obtain ⟨f, hf, hr⟩ : ∃ f, Text.Escape.pair (code * 16 + d) = f ∧ Reads Text.nameEscape? f rest x := by
        simpa [Text.Escape.next, hd, hhigh] using hr
      subst hf
      obtain ⟨ds, n, rfl, hn, hlow, hx⟩ := hexUnit_of_pair hr
      rw [hx]
      exact .pair hdigits hn hhigh hlow
  · cases hs : Text.nameEscape? c with
    | none => simp [Text.Escape.next, hu, hs] at hc
    | some d =>
      obtain ⟨rfl, rfl⟩ : d = x ∧ rest = [] := by simpa [Text.Escape.next, hu, hs] using hc
      exact .short hs

end escapes

section sound

variable {r : Reading}

namespace Reading

theorem run_cons_ok (h : run r p (c :: cs) = .ok l) : ∃ s, r.next p c = .ok s ∧ run s (p.after c) cs = .ok l := by
  rw [run] at h
  exact bind_eq_ok h

/-- What completes an escape, and the character that it stands for. -/
theorem escape_ok {e : Text.Escape} (h : run ⟨ss, .escape form quote read e⟩ p cs = .ok l) :
    ∃ es d rest q, cs = es ++ rest ∧ e.Reads Text.nameEscape? es d ∧
      run ⟨ss, .quoted form quote (d :: read)⟩ q rest = .ok l := by
  induction cs generalizing e p with
  | nil => cases e <;> cases h
  | cons c cs ih =>
    obtain ⟨s, hs, h⟩ := run_cons_ok h
    simp only [next] at hs
    split at hs
    · next e' he =>
      cases hs
      obtain ⟨es, d, rest, q, rfl, hr, hq⟩ := ih h
      exact ⟨c :: es, d, rest, q, rfl, .more he hr, hq⟩
    · next d he =>
      cases hs
      exact ⟨[c], d, cs, p.after c, rfl, .last he, h⟩
    all_goals cases hs

/-- What completes a text in quotes. -/
theorem quoted_ok {cs read : List Char} {p : Text.Position} (h : run ⟨ss, .quoted form quote read⟩ p cs = .ok l) :
    ∃ body value rest q, cs = body ++ quote :: rest ∧ Syntax.Spells quote body value ∧
      run (behind (.name (String.ofList (read.reverse ++ value)) :: ss) form) q rest = .ok l := by
  match cs, h with
  | [], h => cases h
  | c :: cs, h =>
    obtain ⟨s, hs, h⟩ := run_cons_ok h
    simp only [next] at hs
    split at hs
    · next hc =>
      cases hs
      rw [pushName, push_eq] at h
      exact ⟨[], [], cs, p.after c, by rw [hc]; rfl, .nil, by rwa [List.append_nil]⟩
    split at hs
    · next hc hb =>
      cases hs
      subst hb
      obtain ⟨es, d, rest, q, hcs, hr, h⟩ := escape_ok h
      have hshort : rest.length < cs.length + 1 := by
        rw [hcs, List.length_append]
        omega
      obtain ⟨body, value, rest', q', hrest, hv, h⟩ := quoted_ok h
      rw [List.reverse_cons, List.append_assoc] at h
      refine ⟨'\\' :: (es ++ body), d :: value, rest', q', ?_, .escape (escapeText_of_reads hr) hv, h⟩
      rw [hcs, hrest]
      simp
    · next hc hb =>
      cases hs
      obtain ⟨body, value, rest, q, hrest, hv, h⟩ := quoted_ok h
      rw [List.reverse_cons, List.append_assoc] at h
      exact ⟨c :: body, c :: value, rest, q, by rw [hrest]; rfl, .char hc hb hv, h⟩
termination_by cs.length

theorem pushIndex_ok {scan : Scan} (h : pushIndex ⟨ss, scan⟩ form read = .ok r) :
    natOfDigits read.reverse < UInt64.size ∧ r = behind (.index (natOfDigits read.reverse) :: ss) form := by
  simp only [pushIndex] at h
  split at h
  · next hi =>
    cases h
    exact ⟨hi, push_eq _ _ _⟩
  · cases h

/-- What completes an index. -/
theorem digits_ok (h : run ⟨ss, .digits form read⟩ p cs = .ok l) :
    ∃ ds rest q, cs = ds ++ rest ∧ (∀ c ∈ ds, c.isDigit = true) ∧ natOfDigits (read.reverse ++ ds) < UInt64.size ∧
      run (behind (.index (natOfDigits (read.reverse ++ ds)) :: ss) form) q rest = .ok l := by
  induction cs generalizing read p with
  | nil =>
    obtain ⟨r, hr, h⟩ := bind_eq_ok (mapError_eq_ok h)
    obtain ⟨hi, rfl⟩ := pushIndex_ok hr
    refine ⟨[], [], p, rfl, nofun, by rwa [List.append_nil], ?_⟩
    rw [List.append_nil]
    split at h
    · next hf =>
      subst hf
      cases h
      rfl
    · cases h
  | cons c cs ih =>
    obtain ⟨s, hs, h⟩ := run_cons_ok h
    simp only [next] at hs
    split at hs
    · next hc =>
      cases hs
      obtain ⟨ds, rest, q, rfl, hd, hi, h⟩ := ih h
      rw [List.reverse_cons, List.append_assoc] at hi h
      exact ⟨c :: ds, rest, q, rfl, List.forall_mem_cons.2 ⟨hc, hd⟩, hi, h⟩
    · next hc =>
      obtain ⟨r, hr, hafter⟩ := bind_eq_ok (mapError_eq_ok hs)
      obtain ⟨hi, rfl⟩ := pushIndex_ok hr
      refine ⟨[], c :: cs, p, rfl, nofun, by rwa [List.append_nil], ?_⟩
      rw [List.append_nil]
      have hnext : next (behind (.index (natOfDigits read.reverse) :: ss) form) p c = .ok s := by
        cases form
        · exact congrArg (Except.mapError (SyntaxError.mk · p)) hafter
        · exact congrArg (Except.mapError (SyntaxError.mk · p)) hafter
      rw [run_cons hnext, h]

/-- What completes a name without quotes. -/
theorem bare_ok (h : run ⟨ss, .bare read⟩ p cs = .ok l) :
    ∃ name rest q, cs = name ++ rest ∧ (∀ c ∈ name, inBareName c = true) ∧
      run ⟨.name (String.ofList (read.reverse ++ name)) :: ss, .gap⟩ q rest = .ok l := by
  induction cs generalizing read p with
  | nil => exact ⟨[], [], p, rfl, nofun, by rw [List.append_nil]; exact h⟩
  | cons c cs ih =>
    by_cases hc : inBareName c = true
    · obtain ⟨s, hs, h⟩ := run_cons_ok h
      have hne : ¬(c = '.' || c = '[' || Text.isBlank c) = true := by simpa [inBareName, and_assoc] using hc
      simp only [next, if_neg hne] at hs
      cases hs
      obtain ⟨name, rest, q, rfl, hn, h⟩ := ih h
      rw [List.reverse_cons, List.append_assoc] at h
      exact ⟨c :: name, rest, q, rfl, List.forall_mem_cons.2 ⟨hc, hn⟩, h⟩
    · refine ⟨[], c :: cs, p, rfl, nofun, ?_⟩
      rw [run_bare_end (by simpa using hc)] at h
      rwa [List.append_nil]

/-- A name whose quote has been read. -/
theorem key_ok_of_quote (hc : c = '\'' ∨ c = '"') (h : run ⟨ss, .quoted form c []⟩ p cs = .ok l) :
    ∃ key s rest q, c :: cs = key ++ rest ∧ KeyText key s ∧ run (behind (s :: ss) form) q rest = .ok l := by
  obtain ⟨body, value, rest, q, rfl, hv, h⟩ := quoted_ok h
  exact ⟨c :: (body ++ [c]), _, rest, q, by simp, .name ⟨c, hc, body, value, hv⟩, h⟩

/-- An index whose first digit has been read. -/
theorem key_ok_of_digit (hc : c.isDigit = true) (h : run ⟨ss, .digits form [c]⟩ p cs = .ok l) :
    ∃ key s rest q, c :: cs = key ++ rest ∧ KeyText key s ∧ run (behind (s :: ss) form) q rest = .ok l := by
  obtain ⟨ds, rest, q, rfl, hd, hi, h⟩ := digits_ok h
  exact ⟨c :: ds, _, rest, q, rfl, .index (List.forall_mem_cons.2 ⟨hc, hd⟩) hi, h⟩

theorem closing_ok (h : run ⟨ss, .closing⟩ p cs = .ok l) :
    ∃ blanks rest q, cs = blanks ++ ']' :: rest ∧ Spaces blanks ∧ run ⟨ss, .gap⟩ q rest = .ok l := by
  induction cs generalizing p with
  | nil => cases h
  | cons c cs ih =>
    obtain ⟨s, hs, h⟩ := run_cons_ok h
    have hs := mapError_eq_ok hs
    unfold nextClosing at hs
    split at hs
    · next hc =>
      cases hs
      obtain ⟨blanks, rest, q, rfl, hb, h⟩ := ih h
      exact ⟨c :: blanks, rest, q, rfl, hb.cons hc, h⟩
    split at hs
    · next hc =>
      cases hs
      exact ⟨[], cs, p.after c, by rw [hc]; rfl, spaces_nil, h⟩
    · cases hs

/-- What completes a step in brackets. -/
theorem bracket_ok (h : run ⟨ss, .bracket⟩ p cs = .ok l) : ∃ blanks key behind s rest q,
    cs = blanks ++ (key ++ (behind ++ ']' :: rest)) ∧ Spaces blanks ∧ KeyText key s ∧ Spaces behind ∧
      run ⟨s :: ss, .gap⟩ q rest = .ok l := by
  have hclose : ∀ {c cs}, (∃ key s rest q, c :: cs = key ++ rest ∧ KeyText key s ∧
      run (behind (s :: ss) .bracket) q rest = .ok l) → ∃ blanks key behind s rest q,
        c :: cs = blanks ++ (key ++ (behind ++ ']' :: rest)) ∧ Spaces blanks ∧ KeyText key s ∧ Spaces behind ∧
          run ⟨s :: ss, .gap⟩ q rest = .ok l := by
    rintro c cs ⟨key, s, rest, q, hcs, hk, h⟩
    obtain ⟨blanks, rest, q, rfl, hb, h⟩ := closing_ok h
    exact ⟨[], key, blanks, s, rest, q, hcs, spaces_nil, hk, hb, h⟩
  induction cs generalizing p with
  | nil => cases h
  | cons c cs ih =>
    obtain ⟨s, hs, h⟩ := run_cons_ok h
    simp only [next] at hs
    split at hs
    · next hc =>
      cases hs
      obtain ⟨blanks, key, behind, s, rest, q, rfl, hb, hrest⟩ := ih h
      exact ⟨c :: blanks, key, behind, s, rest, q, rfl, hb.cons hc, hrest⟩
    split at hs
    · next hc =>
      cases hs
      exact hclose (key_ok_of_quote (by simpa using hc) h)
    split at hs
    · next hc =>
      cases hs
      exact hclose (key_ok_of_digit hc h)
    · cases hs

/-- What completes a step behind a dot, which may have no name before a blank. -/
theorem dot_ok (h : run ⟨ss, .dot⟩ p cs = .ok l) :
    (∃ text s rest q, '.' :: cs = text ++ rest ∧ StepText text s ∧ run ⟨s :: ss, .gap⟩ q rest = .ok l) ∨
      ∃ c rest, cs = c :: rest ∧ Text.isBlank c = true ∧ run ⟨.name "" :: ss, .gap⟩ p cs = .ok l := by
  have hkey : ∀ {c cs}, (∃ key s rest q, c :: cs = key ++ rest ∧ KeyText key s ∧
      run (behind (s :: ss) .dot) q rest = .ok l) →
        ∃ text s rest q, '.' :: c :: cs = text ++ rest ∧ StepText text s ∧ run ⟨s :: ss, .gap⟩ q rest = .ok l := by
    rintro c cs ⟨key, s, rest, q, hcs, hk, h⟩
    exact ⟨'.' :: key, s, rest, q, by rw [hcs]; rfl, .dot hk, h⟩
  cases cs with
  | nil => cases h
  | cons c cs =>
    obtain ⟨s, hs, htail⟩ := run_cons_ok h
    simp only [next] at hs
    split at hs
    · next hc =>
      cases hs
      exact .inl (hkey (key_ok_of_quote (by simpa using hc) htail))
    split at hs
    · next hc =>
      cases hs
      exact .inl (hkey (key_ok_of_digit hc htail))
    split at hs
    · cases hs
    split at hs
    · next hc =>
      have hnext : next ⟨.name "" :: ss, .gap⟩ p c = .ok s := hs
      exact .inr ⟨c, cs, rfl, hc, by rw [run_cons hnext, htail]⟩
    · next hq hd hdot hblank =>
      cases hs
      obtain ⟨name, rest, q, rfl, hn, h⟩ := bare_ok htail
      have hfirst : inBareName c = true := by simpa [inBareName, hblank] using hdot
      refine .inl ⟨'.' :: c :: name, _, rest, q, rfl, .bare ?_ (by simpa using hq) (by simpa using hd), h⟩
      exact List.forall_mem_cons.2 ⟨hfirst, hn⟩

theorem gap_ok {cs : List Char} {ss : List Step} {p : Text.Position} (h : run ⟨ss, .gap⟩ p cs = .ok l) :
    ∃ m, l = ss.reverse ++ m ∧ StepsText true cs m := by
  match cs, h with
  | [], h =>
    cases h
    exact ⟨[], by rw [List.append_nil], .nil spaces_nil⟩
  | c :: cs, h =>
    obtain ⟨s, hs, h⟩ := run_cons_ok h
    have hs := mapError_eq_ok hs
    unfold nextInGap at hs
    split at hs
    · next hc =>
      cases hs
      obtain ⟨m, hl, hm⟩ := gap_ok h
      exact ⟨m, hl, hm.blank hc⟩
    split at hs
    · next hc =>
      cases hs
      subst hc
      obtain ⟨blanks, key, behind, s, rest, q, rfl, hb, hk, ha, h⟩ := bracket_ok h
      obtain ⟨m, hl, hm⟩ := gap_ok h
      refine ⟨s :: m, by rw [hl, List.reverse_cons, List.append_assoc]; rfl, ?_⟩
      have htext := StepsText.cons spaces_nil (.bracket hb hk ha) hm
      simpa using htext
    split at hs
    · next hc =>
      cases hs
      subst hc
      rcases dot_ok h with ⟨text, s, rest, q, htext, hs, h⟩ | ⟨c, rest, rfl, hc, h⟩
      · have hshort : rest.length < cs.length + 1 := by
          have hlength := congrArg List.length htext
          have hpos : 0 < text.length := by cases hs <;> simp
          rw [List.length_append, List.length_cons] at hlength
          omega
        obtain ⟨m, hl, hm⟩ := gap_ok h
        refine ⟨s :: m, by rw [hl, List.reverse_cons, List.append_assoc]; rfl, ?_⟩
        rw [htext]
        exact .cons spaces_nil hs hm
      · obtain ⟨m, hl, hm⟩ := gap_ok h
        exact ⟨.name "" :: m, by rw [hl, List.reverse_cons, List.append_assoc]; rfl,
          .nameless rfl spaces_nil hc hm⟩
    · cases hs
termination_by cs.length

theorem start_ok (h : run .start p cs = .ok l) : IsTextOf true l cs := by
  induction cs generalizing p with
  | nil => cases h
  | cons c cs ih =>
    obtain ⟨s, hs, h⟩ := run_cons_ok h
    simp only [next, start] at hs
    split at hs
    · next hc =>
      cases hs
      cases ih h with
      | mk hb hopen hr =>
        rw [← List.cons_append]
        exact .mk (hb.cons hc) hopen hr
    split at hs
    · next hc =>
      cases hs
      obtain ⟨m, rfl, hm⟩ := gap_ok h
      exact .mk spaces_nil (by simpa using hc) hm
    · cases hs

end Reading

/-- What is read is a text of what it is read as. -/
theorem isTextOf_of_ofText {t : String} (h : ofText t = .ok l) : IsTextOf true l t.toList :=
  Reading.start_ok h

end sound

/-- No dot stands directly before a blank. -/
def DotsNamed (cs : List Char) : Prop := ∀ c, Text.isBlank c = true → ¬['.', c] <:+: cs

theorem DotsNamed.of_suffix (h : DotsNamed cs) (hr : rest <:+ cs) : DotsNamed rest :=
  fun c hc hin => h c hc (hin.trans hr.isInfix)

/-- A loose text is strict if it has no empty name or no dot before a blank. -/
theorem StepsText.strict (h : StepsText loose cs l) (hd : .name "" ∈ l → DotsNamed cs) : StepsText false cs l := by
  induction h with
  | nil hb => exact .nil hb
  | cons hb hs _ ih =>
    refine .cons hb hs (ih ?_)
    intro hm
    exact (hd (List.mem_cons_of_mem _ hm)).of_suffix ((List.suffix_append _ _).trans (List.suffix_append _ _))
  | @nameless _ blanks rest c _ _ hc _ _ => exact absurd ⟨blanks, rest, by simp⟩ (hd (by simp) c hc)

theorem IsTextOf.strict (h : IsTextOf loose l cs) (hd : .name "" ∈ l → DotsNamed cs) : IsTextOf false l cs := by
  cases h with
  | @mk blanks rest c _ hb hc hr =>
    refine .mk hb hc (hr.strict ?_)
    intro hm
    exact (hd hm).of_suffix ((List.suffix_cons c rest).trans (List.suffix_append _ _))

/-- The texts that are read, and as what: all of the grammar, and otherwise only texts where a dot before a blank is
taken for a step with an empty name. -/
theorem ofText_eq_ok_iff (t : String) (l : Location) :
    (IsTextOf false l t.toList → ofText t = .ok l) ∧
      (ofText t = .ok l ↔ IsTextOf true l t.toList) ∧
        ((.name "" ∈ l → DotsNamed t.toList) → (ofText t = .ok l ↔ IsTextOf false l t.toList)) := by
  refine ⟨ofText_of_isTextOf, ⟨isTextOf_of_ofText, ofText_of_isTextOf⟩, ?_⟩
  intro hd
  exact ⟨fun h => (isTextOf_of_ofText h).strict hd, ofText_of_isTextOf⟩

/-- An index with blanks around it, and a name with an escape behind a dot. -/
theorem ofText_eq_ok_iff_spaced : IsTextOf false [.index 7, .name "a'"] " @\t[ 07 ] .'a\\'' ".toList := by
  have hd : .name "" ∈ [Step.index 7, .name "a'"] → DotsNamed " @\t[ 07 ] .'a\\'' ".toList := by simp
  exact ((ofText_eq_ok_iff " @\t[ 07 ] .'a\\'' " [.index 7, .name "a'"]).2.2 hd).1 rfl

theorem KeyText.quote_mem {t : String} (h : KeyText cs (.name t)) : '\'' ∈ cs ∨ '"' ∈ cs := by
  cases h with
  | name t =>
    rcases t.isQuote with h | h
    · exact .inl (by simp [Syntax.QuotedText.token, Syntax.Token.text, h])
    · exact .inr (by simp [Syntax.QuotedText.token, Syntax.Token.text, h])

/-- An empty name is written in quotes. -/
theorem StepText.quote_mem (h : StepText cs s) (hs : s = .name "") : '\'' ∈ cs ∨ '"' ∈ cs := by
  cases h with
  | bracket _ hk _ =>
    subst hs
    rcases hk.quote_mem with h | h
    · exact .inl (by simp [h])
    · exact .inr (by simp [h])
  | dot hk =>
    subst hs
    rcases hk.quote_mem with h | h
    · exact .inl (by simp [h])
    · exact .inr (by simp [h])
  | bare => simp at hs

theorem StepsText.quote_mem (h : StepsText loose cs l) (hl : loose = false) (hm : .name "" ∈ l) :
    '\'' ∈ cs ∨ '"' ∈ cs := by
  induction h with
  | nil => cases hm
  | cons _ hs _ ih =>
    rcases List.mem_cons.1 hm with h | h
    · rcases hs.quote_mem h.symm with h | h
      · exact .inl (by simp [h])
      · exact .inr (by simp [h])
    · rcases ih h with h | h
      · exact .inl (by simp [h])
      · exact .inr (by simp [h])
  | nameless ht => cases hl.symm.trans ht

/-- A dot before a blank is read as a step with an empty name. The grammar has no such text. -/
theorem ofText_nameless : ofText "$. " = .ok [.name ""] ∧ ∀ l, ¬IsTextOf false l "$. ".toList := by
  refine ⟨rfl, ?_⟩
  intro l h
  have hl : Except.ok [Step.name ""] = Except.ok l := (rfl : ofText "$. " = _).symm.trans (ofText_of_isTextOf h)
  cases hl
  generalize hcs : "$. ".toList = cs at h
  cases h with
  | @mk blanks rest c _ _ _ hr =>
    have hquote : '\'' ∈ blanks ++ c :: rest ∨ '"' ∈ blanks ++ c :: rest := by
      rcases hr.quote_mem rfl (by simp) with h | h
      · exact .inl (by simp [h])
      · exact .inr (by simp [h])
    rw [← hcs] at hquote
    simp at hquote

theorem StepText.fits (h : StepText cs s) : s.Fits := by
  have hkey : ∀ {key}, KeyText key s → s.Fits := by
    intro key hk
    cases hk with
    | name t => trivial
    | index _ hi => exact hi
  cases h with
  | bracket _ hk _ => exact hkey hk
  | dot hk => exact hkey hk
  | bare => trivial

theorem StepsText.fits (h : StepsText loose cs l) : l.Fits := by
  induction h with
  | nil => exact nofun
  | cons _ hs _ ih => exact List.forall_mem_cons.2 ⟨hs.fits, ih⟩
  | nameless _ _ _ _ ih => exact List.forall_mem_cons.2 ⟨trivial, ih⟩

theorem IsTextOf.fits (h : IsTextOf loose l cs) : l.Fits := by
  cases h with
  | mk _ _ hr => exact hr.fits

/-- Writing and reading: a location is read back, so different locations have different texts, and what has been read
from any text is read again from the text that is written for it. -/
theorem text_read_back :
    (∀ l : Location, l.Fits → ofText l.text = .ok l) ∧
      (∀ l m : Location, l.Fits → m.Fits → l.text = m.text → l = m) ∧
        ∀ (t : String) (l : Location), ofText t = .ok l → ofText l.text = .ok l := by
  refine ⟨fun l => read_text, fun l m _ _ => text_injective, ?_⟩
  intro t l h
  exact read_text (isTextOf_of_ofText h).fits

/-- A quote, a backslash, control characters, blanks and an empty name are read back. -/
theorem text_read_back_odd :
    ofText (text [.name "'\\\u0000\n\u0085\u2028]", .name "", .index (UInt64.size - 1)]) =
      .ok [.name "'\\\u0000\n\u0085\u2028]", .name "", .index (UInt64.size - 1)] := by
  refine text_read_back.1 _ ?_
  intro s hs
  simp only [List.mem_cons, List.not_mem_nil, or_false] at hs
  rcases hs with rfl | rfl | rfl
  · trivial
  · trivial
  · show UInt64.size - 1 < UInt64.size
    decide

end PathQuery.Location
