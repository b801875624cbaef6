import PathQuery.Proofs.Query.Spelling

namespace PathQuery.Location

open Syntax (QuotedText)

/-- Blanks of any script. -/
def Spaces (cs : List Char) : Prop := ∀ c ∈ cs, Text.isBlank c = true

/-- A name in quotes, or digits of an index of 64 bits. -/
inductive KeyText : List Char → Step → Prop
  | name (t : QuotedText) : KeyText t.token.text (.name t.value)
  | index {d : Char} {ds : List Char} (hd : ∀ c ∈ d :: ds, c.isDigit = true)
      (hi : natOfDigits (d :: ds) < UInt64.size) : KeyText (d :: ds) (.index (natOfDigits (d :: ds)))

/-- Whether a name without quotes goes on with a character. -/
def inBareName (c : Char) : Bool := c != '.' && c != '[' && !Text.isBlank c

/-- How a step is written. -/
inductive StepText : List Char → Step → Prop
  | bracket {before key behind : List Char} {s : Step} (hb : Spaces before) (hk : KeyText key s) (ha : Spaces behind) :
      StepText ('[' :: (before ++ (key ++ (behind ++ [']'])))) s
  | dot {key : List Char} {s : Step} (hk : KeyText key s) : StepText ('.' :: key) s
  | bare {c : Char} {cs : List Char} (hc : ∀ d ∈ c :: cs, inBareName d = true) (hq : c ≠ '\'' ∧ c ≠ '"')
      (hd : c.isDigit = false) : StepText ('.' :: c :: cs) (.name (String.ofList (c :: cs)))

/-- Steps, with blanks before each and at the end. In a loose text a dot may be nameless, with a blank behind it. -/
inductive StepsText (loose : Bool) : List Char → Location → Prop
  | nil {blanks : List Char} (hb : Spaces blanks) : StepsText loose blanks []
  | cons {blanks step rest : List Char} {s : Step} {l : Location} (hb : Spaces blanks) (hs : StepText step s)
      (hr : StepsText loose rest l) : StepsText loose (blanks ++ (step ++ rest)) (s :: l)
  | nameless (hl : loose = true) {blanks rest : List Char} {c : Char} {l : Location} (hb : Spaces blanks)
      (hc : Text.isBlank c = true) (hr : StepsText loose (c :: rest) l) :
      StepsText loose (blanks ++ '.' :: c :: rest) (.name "" :: l)

/-- A text of a location. -/
inductive IsTextOf (loose : Bool) : Location → List Char → Prop
  | mk {blanks rest : List Char} {c : Char} {l : Location} (hb : Spaces blanks) (hc : c = '$' ∨ c = '@')
      (hr : StepsText loose rest l) : IsTextOf loose l (blanks ++ c :: rest)

variable {loose : Bool} {cs rest : List Char} {c : Char} {s : Step} {l m : Location} {ss : List Step}
  {p : Text.Position} {form : Form} {quote : Char} {read : List Char}

theorem spaces_nil : Spaces [] := by simp [Spaces]

theorem Spaces.cons (hc : Text.isBlank c = true) (h : Spaces cs) : Spaces (c :: cs) :=
  List.forall_mem_cons.2 ⟨hc, h⟩

/-- A blank can stand before steps. -/
theorem StepsText.blank (hc : Text.isBlank c = true) (h : StepsText loose cs l) : StepsText loose (c :: cs) l := by
  cases h with
  | nil hb => exact .nil (hb.cons hc)
  | cons hb hs hr =>
    rw [← List.cons_append]
    exact .cons (hb.cons hc) hs hr
  | nameless hl hb hd hr =>
    rw [← List.cons_append]
    exact .nameless hl (hb.cons hc) hd hr

/-- What can stand behind a step: a blank, the start of a step, or nothing. -/
theorem StepsText.head (h : StepsText loose cs l) : ∀ c ∈ cs.head?, inBareName c = false := by
  have hblank : ∀ {blanks rest : List Char}, Spaces blanks → (∀ c ∈ rest.head?, inBareName c = false) →
      ∀ c ∈ (blanks ++ rest).head?, inBareName c = false := by
    intro blanks rest hb hr c hc
    cases blanks with
    | nil => exact hr c hc
    | cons b blanks =>
      obtain rfl : b = c := by simpa using hc
      simp [inBareName, hb b (by simp)]
  cases h with
  | nil hb =>
    rw [← List.append_nil cs]
    exact hblank hb (by simp)
  | cons hb hs hr =>
    refine hblank hb ?_
    cases hs <;> simp [inBareName]
  | nameless hl hb hc hr => exact hblank hb (by simp [inBareName])

/-- What stands behind a step is no digit. -/
theorem StepsText.head_not_digit (h : StepsText loose cs l) : ∀ c ∈ cs.head?, c.isDigit = false := by
  intro c hc
  have hbare := h.head c hc
  cases hd : c.isDigit with
  | false => rfl
  | true =>
    have hdot : c ≠ '.' := by
      rintro rfl
      cases hd
    have hbracket : c ≠ '[' := by
      rintro rfl
      cases hd
    simp [inBareName, hdot, hbracket, Text.isBlank_eq_false_of_isDigit hd] at hbare

namespace Reading

/-- Where the reader is behind a step. -/
def behind (ss : List Step) : Form → Reading
  | .bracket => ⟨ss, .closing⟩
  | .dot => ⟨ss, .gap⟩

/-- Where the reader is before a step. -/
def before (ss : List Step) : Form → Reading
  | .bracket => ⟨ss, .bracket⟩
  | .dot => ⟨ss, .dot⟩

theorem push_eq (r : Reading) (form : Form) (s : Step) : r.push form s = behind (s :: r.steps) form := by
  cases form <;> rfl

theorem run_spaces {r : Reading} (p : Text.Position) (rest : List Char)
    (hr : ∀ p c, Text.isBlank c = true → r.next p c = .ok r) {blanks : List Char} (hb : Spaces blanks) :
    ∃ q, run r p (blanks ++ rest) = run r q rest := by
  induction blanks generalizing p with
  | nil => exact ⟨p, rfl⟩
  | cons c blanks ih =>
    obtain ⟨q, hq⟩ := ih (p.after c) fun d hd => hb d (by simp [hd])
    refine ⟨q, ?_⟩
    rw [List.cons_append, run_cons (hr p c (hb c (by simp))), hq]

theorem run_spelled (hq : quote ≠ '\\') {body value : List Char} (h : Syntax.Spells quote body value) :
    ∃ q, run ⟨ss, .quoted form quote read⟩ p (body ++ rest) =
      run ⟨ss, .quoted form quote (value.reverse ++ read)⟩ q rest := by
  induction h generalizing read p with
  | nil => exact ⟨p, rfl⟩
  | @char c body value hc hb _ ih =>
    have hnext : next ⟨ss, .quoted form quote read⟩ p c = .ok ⟨ss, .quoted form quote (c :: read)⟩ := by
      simp only [next, if_neg hc, if_neg hb]
    obtain ⟨q, ih⟩ := @ih (p.after c) (c :: read)
    refine ⟨q, ?_⟩
    rw [List.cons_append, run_cons hnext, ih, List.reverse_cons, List.append_assoc]
    rfl
  | @escape es d body value he _ ih =>
    have hnext : next ⟨ss, .quoted form quote read⟩ p '\\' = .ok ⟨ss, .escape form quote read .backslash⟩ := by
      simp only [next, if_neg hq.symm, if_true]
    obtain ⟨q, ih⟩ := @ih ((p.after '\\').afterAll es) (d :: read)
    refine ⟨q, ?_⟩
    rw [List.cons_append, List.append_assoc, run_cons hnext, run_escape he.reads, ih, List.reverse_cons,
      List.append_assoc]
    rfl

/-- Behind its digits an index is complete. -/
theorem run_digits_end (hi : natOfDigits read.reverse < UInt64.size) (hr : ∀ c ∈ rest.head?, c.isDigit = false)
    (hf : rest = [] → form = .dot) :
    run ⟨ss, .digits form read⟩ p rest = run (behind (.index (natOfDigits read.reverse) :: ss) form) p rest := by
  have hpush : ∀ scan, pushIndex ⟨ss, scan⟩ form read =
      .ok (behind (.index (natOfDigits read.reverse) :: ss) form) := by
    intro scan
    simp only [pushIndex, if_pos hi, push_eq]
  cases rest with
  | nil =>
    obtain rfl := hf rfl
    simp only [run, finish, hpush]
    rfl
  | cons c rest =>
    have hc : ¬c.isDigit = true := by simp [hr c rfl]
    have hnext : next ⟨ss, .digits form read⟩ p c =
        next (behind (.index (natOfDigits read.reverse) :: ss) form) p c := by
      simp only [next, if_neg hc, hpush]
      cases form <;> rfl
    rw [run, run, hnext]

theorem not_quote_of_isDigit (h : c.isDigit = true) : ¬(c = '\'' ∨ c = '"') := by
  rintro (rfl | rfl) <;> cases h

/-- A name in quotes or an index is read wherever a step is expected. -/
theorem run_key {key : List Char} (ss : List Step) (p : Text.Position) (form : Form) (h : KeyText key s)
    (hr : ∀ c ∈ rest.head?, c.isDigit = false)
    (hf : rest = [] → form = .dot) :
    ∃ q, run (before ss form) p (key ++ rest) = run (behind (s :: ss) form) q rest := by
  cases h with
  | name t =>
    have hquote : t.quote ≠ '\\' := by
      rcases t.isQuote with h | h <;> rw [h] <;> decide
    have hopen : next (before ss form) p t.quote = .ok ⟨ss, .quoted form t.quote []⟩ := by
      have hblank : Text.isBlank t.quote = false := by
        rcases t.isQuote with h | h <;> rw [h] <;> decide
      cases form <;> simp [next, before, t.isQuote, hblank]
    obtain ⟨q, hq⟩ := @run_spelled (t.quote :: rest) ss (p.after t.quote) form t.quote [] hquote _ _ t.spells
    have hclose : next ⟨ss, .quoted form t.quote (t.chars.reverse ++ [])⟩ q t.quote =
        .ok (behind (.name t.value :: ss) form) := by
      simp [next, pushName, push_eq, QuotedText.value]
    refine ⟨q.after t.quote, ?_⟩
    have htext : t.token.text ++ rest = t.quote :: (t.body ++ t.quote :: rest) := by
      simp [QuotedText.token, Syntax.Token.text]
    rw [htext, run_cons hopen, hq, run_cons hclose]
  | @index d ds hd hi =>
    have hfirst : d.isDigit = true := hd d (by simp)
    have hopen : next (before ss form) p d = .ok ⟨ss, .digits form [d]⟩ := by
      cases form <;>
        simp [next, before, not_quote_of_isDigit hfirst, hfirst, Text.isBlank_eq_false_of_isDigit hfirst]
    have hvalue : (ds.reverse ++ [d]).reverse = d :: ds := by simp
    refine ⟨(p.after d).afterAll ds, ?_⟩
    rw [List.cons_append, run_cons hopen, run_digits _ _ fun c hc => hd c (by simp [hc]),
      run_digits_end (by rwa [hvalue]) hr hf, hvalue]

theorem run_bare {cs : List Char} (h : ∀ c ∈ cs, inBareName c = true) :
    ∃ q, run ⟨ss, .bare read⟩ p (cs ++ rest) = run ⟨ss, .bare (cs.reverse ++ read)⟩ q rest := by
  induction cs generalizing read p with
  | nil => exact ⟨p, rfl⟩
  | cons c cs ih =>
    have hc : ¬(c = '.' || c = '[' || Text.isBlank c) = true := by
      simpa [inBareName, and_assoc] using h c (by simp)
    have hnext : next ⟨ss, .bare read⟩ p c = .ok ⟨ss, .bare (c :: read)⟩ := by
      simp only [next, if_neg hc]
    obtain ⟨q, ih⟩ := @ih (p.after c) (c :: read) fun d hd => h d (by simp [hd])
    refine ⟨q, ?_⟩
    rw [List.cons_append, run_cons hnext, ih, List.reverse_cons, List.append_assoc]
    rfl

/-- A name without quotes ends before the next character, or at the end of the text. -/
theorem run_bare_end (hr : ∀ c ∈ rest.head?, inBareName c = false) :
    run ⟨ss, .bare read⟩ p rest = run ⟨.name (String.ofList read.reverse) :: ss, .gap⟩ p rest := by
  cases rest with
  | nil => rfl
  | cons c rest =>
    have hc : (c = '.' || c = '[' || Text.isBlank c) = true := by
      have hbare : ¬inBareName c = true := by simp [hr c rfl]
      exact Decidable.byContradiction fun hne => hbare (by simpa [inBareName, and_assoc] using hne)
    have hnext : next ⟨ss, .bare read⟩ p c = next ⟨.name (String.ofList read.reverse) :: ss, .gap⟩ p c := by
      simp only [next, if_pos hc]
      rfl
    rw [run, run, hnext]

/-- A step is read as what it is written for. -/
theorem run_step {step : List Char} (h : StepText step s) (hr : ∀ c ∈ rest.head?, inBareName c = false)
    (hd : ∀ c ∈ rest.head?, c.isDigit = false) :
    ∃ q, run ⟨ss, .gap⟩ p (step ++ rest) = run ⟨s :: ss, .gap⟩ q rest := by
  cases h with
  | @bracket blanks key blanks' _ hb hk ha =>
    have hopen : next ⟨ss, .gap⟩ p '[' = .ok (before ss .bracket) := rfl
    have hwait : ∀ q c, Text.isBlank c = true → next (before ss .bracket) q c = .ok (before ss .bracket) := by
      intro q c hc
      simp [next, before, hc]
    have hrest : ∀ q c, Text.isBlank c = true →
        next (behind (s :: ss) .bracket) q c = .ok (behind (s :: ss) .bracket) := by
      intro q c hc
      simp only [next, behind, nextClosing, if_pos hc]
      rfl
    have hhead : ∀ c ∈ (blanks' ++ ']' :: rest).head?, c.isDigit = false := by
      intro c hc
      cases blanks' with
      | nil =>
        obtain rfl : ']' = c := by simpa using hc
        rfl
      | cons b blanks' =>
        obtain rfl : b = c := by simpa using hc
        cases hd : b.isDigit with
        | false => rfl
        | true =>
          have hblank := ha b (by simp)
          rw [Text.isBlank_eq_false_of_isDigit hd] at hblank
          cases hblank
    obtain ⟨q₁, h₁⟩ := run_spaces (p.after '[') (key ++ (blanks' ++ ']' :: rest)) hwait hb
    obtain ⟨q₂, h₂⟩ := run_key ss q₁ .bracket hk hhead (by simp)
    obtain ⟨q₃, h₃⟩ := run_spaces q₂ (']' :: rest) hrest ha
    have hclose : next (behind (s :: ss) .bracket) q₃ ']' = .ok ⟨s :: ss, .gap⟩ := rfl
    refine ⟨q₃.after ']', ?_⟩
    have htext : '[' :: (blanks ++ (key ++ (blanks' ++ [']']))) ++ rest =
        '[' :: (blanks ++ (key ++ (blanks' ++ ']' :: rest))) := by simp
    rw [htext, run_cons hopen, h₁, h₂, h₃, run_cons hclose]
  | dot hk =>
    have hopen : next ⟨ss, .gap⟩ p '.' = .ok (before ss .dot) := rfl
    obtain ⟨q, hq⟩ := run_key ss (p.after '.') .dot hk hd fun _ => rfl
    exact ⟨q, by rw [List.cons_append, run_cons hopen, hq]; rfl⟩
  | @bare c cs hc hq hdigit =>
    have hopen : next ⟨ss, .gap⟩ p '.' = .ok ⟨ss, .dot⟩ := rfl
    have hfirst : next ⟨ss, .dot⟩ (p.after '.') c = .ok ⟨ss, .bare [c]⟩ := by
      have hbare : (c ≠ '.' ∧ c ≠ '[') ∧ Text.isBlank c = false := by simpa [inBareName] using hc c (by simp)
      simp [next, hq.1, hq.2, hdigit, hbare.1.1, hbare.1.2, hbare.2]
    obtain ⟨q, h⟩ := @run_bare rest ss ((p.after '.').after c) [c] cs fun d hd => hc d (by simp [hd])
    refine ⟨q, ?_⟩
    rw [List.cons_append, List.cons_append, run_cons hopen, run_cons hfirst, h, run_bare_end hr]
    simp

theorem run_steps_of_text (h : StepsText loose cs l) : run ⟨ss, .gap⟩ p cs = .ok (ss.reverse ++ l) := by
  have hwait : ∀ ss q c, Text.isBlank c = true → next ⟨ss, .gap⟩ q c = .ok ⟨ss, .gap⟩ := by
    intro ss q c hc
    simp only [next, nextInGap, if_pos hc]
    rfl
  induction h generalizing ss p with
  | nil hb =>
    obtain ⟨q, hq⟩ := run_spaces p [] (hwait ss) hb
    rw [List.append_nil] at hq
    rw [hq, List.append_nil]
    rfl
  | cons hb hs hr ih =>
    obtain ⟨q₁, h₁⟩ := run_spaces p _ (hwait ss) hb
    obtain ⟨q₂, h₂⟩ := run_step (p := q₁) hs hr.head hr.head_not_digit
    rw [h₁, h₂, ih, List.reverse_cons, List.append_assoc]
    rfl
  | @nameless _ blanks rest c l hb hc hr ih =>
    obtain ⟨q, hq⟩ := run_spaces p ('.' :: c :: rest) (hwait ss) hb
    have hopen : next ⟨ss, .gap⟩ q '.' = .ok ⟨ss, .dot⟩ := rfl
    have hquote : c ≠ '\'' ∧ c ≠ '"' ∧ c ≠ '.' ∧ c ≠ '[' := by
      refine ⟨?_, ?_, ?_, ?_⟩ <;> rintro rfl <;> cases hc
    have hdigit : c.isDigit = false := by
      cases hd : c.isDigit with
      | false => rfl
      | true =>
        rw [Text.isBlank_eq_false_of_isDigit hd] at hc
        cases hc
    have hnext : next ⟨ss, .dot⟩ (q.after '.') c = next ⟨.name "" :: ss, .gap⟩ (q.after '.') c := by
      simp [next, hquote, hdigit, hc, pushName, push]
    rw [hq, run_cons hopen, run, hnext, ← run, ih, List.reverse_cons, List.append_assoc]
    rfl

end Reading

/-- Every text of a location is read as this location. -/
theorem ofText_of_isTextOf {t : String} (h : IsTextOf loose l t.toList) : ofText t = .ok l := by
  rw [ofText]
  generalize t.toList = cs at h
  cases h with
  | @mk blanks rest c _ hb hc hr =>
    have hwait : ∀ q d, Text.isBlank d = true → Reading.next .start q d = .ok .start := by
      intro q d hd
      simp [Reading.next, Reading.start, hd]
    obtain ⟨q, hq⟩ := Reading.run_spaces .start (c :: rest) hwait hb
    have hopen : Reading.next .start q c = .ok ⟨[], .gap⟩ := by
      rcases hc with rfl | rfl <;> rfl
    rw [hq, Reading.run_cons hopen, Reading.run_steps_of_text hr]
    rfl

end PathQuery.Location
