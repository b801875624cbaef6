import PathQuery.Location.Reader
import PathQuery.Proofs.Text.Escape

namespace PathQuery

/-- An index is a 64-bit word; a name is any text. -/
def Step.Fits : Step → Prop
  | .index i => i < UInt64.size
  | .name _ => True

/-- All indices of a location are 64-bit words. -/
def Location.Fits (l : Location) : Prop := ∀ s ∈ l, s.Fits

theorem natOfDigits_toDigits (n : Nat) : natOfDigits (Nat.toDigits 10 n) = n := by
  have h : Nat.ofDigitChars 10 (Nat.toDigits 10 n) 0 = n := Nat.ofDigitChars_ten_toDigits
  rwa [Nat.ofDigitChars_eq_foldl] at h

theorem isDigit_of_mem_toDigits {n : Nat} {c : Char} (h : c ∈ Nat.toDigits 10 n) : c.isDigit :=
  Nat.isDigit_of_mem_toDigits (by decide) (by decide) h

/-- Only zero is written with a zero in front. -/
theorem eq_zero_of_head?_toDigits (i : Nat) (h : (Nat.toDigits 10 i).head? = some '0') : i = 0 := by
  induction i using Nat.strongRecOn with
  | ind i ih =>
    by_cases hi : i < 10
    · rw [Nat.toDigits_of_lt_base hi] at h
      simpa using h
    · have hsplit : Nat.toDigits 10 i = Nat.toDigits 10 (i / 10) ++ [(i % 10).digitChar] :=
        Nat.toDigits_of_base_le (by decide) (by omega)
      obtain ⟨d, ds, hds⟩ := List.exists_cons_of_ne_nil (Nat.toDigits_ne_nil : Nat.toDigits 10 (i / 10) ≠ [])
      have hfront : (Nat.toDigits 10 (i / 10)).head? = some '0' := by
        rw [hsplit, hds] at h
        rw [hds]
        exact h
      have hfrontZero : i / 10 = 0 := ih (i / 10) (by omega) hfront
      omega

theorem toDigits_append_inj {i j : Nat} {c : Char} {r r' : List Char} (hc : c.isDigit = false)
    (h : Nat.toDigits 10 i ++ c :: r = Nat.toDigits 10 j ++ c :: r') : i = j ∧ r = r' := by
  have hstop : ∀ n r, (Nat.toDigits 10 n ++ c :: r).takeWhile Char.isDigit = Nat.toDigits 10 n := by
    intro n r
    rw [List.takeWhile_append_of_pos fun d hd => isDigit_of_mem_toDigits hd,
      List.takeWhile_cons_of_neg (by simp [hc]), List.append_nil]
  have hdigits : Nat.toDigits 10 i = Nat.toDigits 10 j := by rw [← hstop i r, h, hstop j r']
  have hij := congrArg natOfDigits hdigits
  rw [natOfDigits_toDigits, natOfDigits_toDigits] at hij
  subst hij
  exact ⟨rfl, (List.cons.inj (List.append_cancel_left h)).2⟩

namespace Step

theorem text_index (i : Nat) : (Step.index i).text.toList = '[' :: (Nat.toDigits 10 i ++ [']']) := by
  simp [Step.text]

theorem text_name (t : String) :
    (Step.name t).text.toList = '[' :: '\'' :: (Text.escape '\'' t.toList ++ ['\'', ']']) := by
  simp [Step.text, Text.quoted]

theorem text_index_ne_name (i : Nat) (t : String) (r r' : List Char) :
    (Step.index i).text.toList ++ r ≠ (Step.name t).text.toList ++ r' := by
  intro h
  obtain ⟨d, ds, hds⟩ := List.exists_cons_of_ne_nil (Nat.toDigits_ne_nil : Nat.toDigits 10 i ≠ [])
  have hd : d.isDigit = true := isDigit_of_mem_toDigits (hds ▸ List.mem_cons_self : d ∈ Nat.toDigits 10 i)
  rw [text_index, text_name, hds] at h
  obtain rfl : d = '\'' := (List.cons.inj (List.cons.inj h).2).1
  cases hd

/-- A step is read off the text that begins with it. -/
theorem text_append_inj {s t : Step} {r r' : List Char} (h : s.text.toList ++ r = t.text.toList ++ r') :
    s = t ∧ r = r' := by
  cases s with
  | index i =>
    cases t with
    | index j =>
      rw [text_index, text_index] at h
      obtain ⟨rfl, hr⟩ := toDigits_append_inj (c := ']') rfl (by simpa using (List.cons.inj h).2)
      exact ⟨rfl, hr⟩
    | name t => exact absurd h (text_index_ne_name i t r r')
  | name s =>
    cases t with
    | index j => exact absurd h.symm (text_index_ne_name j s r' r)
    | name t =>
      rw [text_name, text_name] at h
      obtain ⟨hst, hr⟩ := Text.escape_append_inj (by simpa using h)
      exact ⟨congrArg Step.name (String.toList_injective hst), by simpa using hr⟩

end Step

namespace Location.Reading

variable {ss : List Step} {p : Text.Position} {rest : List Char}

theorem run_cons {r s : Reading} {c : Char} (h : r.next p c = .ok s) :
    run r p (c :: rest) = run s (p.after c) rest := by
  rw [run, h]
  rfl

/-- An escape puts its character behind what has been read of the name. -/
theorem run_escape {form : Form} {quote : Char} {read : List Char} {e : Text.Escape} {cs : List Char} {d : Char}
    (h : Text.Escape.Reads Text.nameEscape? e cs d) :
    run ⟨ss, .escape form quote read e⟩ p (cs ++ rest) =
      run ⟨ss, .quoted form quote (d :: read)⟩ (p.afterAll cs) rest := by
  induction h generalizing p with
  | @last e c d h =>
    have hnext : next ⟨ss, .escape form quote read e⟩ p c = .ok ⟨ss, .quoted form quote (d :: read)⟩ := by
      simp only [next, h]
    rw [List.cons_append, run_cons hnext]
    rfl
  | @more e f c d cs h _ ih =>
    have hnext : next ⟨ss, .escape form quote read e⟩ p c = .ok ⟨ss, .escape form quote read f⟩ := by
      simp only [next, h]
    rw [List.cons_append, run_cons hnext, ih]
    rfl

theorem run_escapeChar (form : Form) (read : List Char) (c : Char) :
    run ⟨ss, .quoted form '\'' read⟩ p (Text.escapeChar '\'' c ++ rest) =
      run ⟨ss, .quoted form '\'' (c :: read)⟩ (p.afterAll (Text.escapeChar '\'' c)) rest := by
  rcases Text.escapeChar_reads_name c with ⟨h, hq, hb⟩ | ⟨cs, h, hr⟩
  · have hnext : next ⟨ss, .quoted form '\'' read⟩ p c = .ok ⟨ss, .quoted form '\'' (c :: read)⟩ := by
      simp only [next, if_neg hq, if_neg hb]
    rw [h, List.cons_append, run_cons hnext]
    rfl
  · have hnext : next ⟨ss, .quoted form '\'' read⟩ p '\\' = .ok ⟨ss, .escape form '\'' read .backslash⟩ := rfl
    rw [h, List.cons_append, run_cons hnext, run_escape hr]
    rfl

theorem run_escaped (form : Form) (read cs : List Char) :
    run ⟨ss, .quoted form '\'' read⟩ p (Text.escape '\'' cs ++ rest) =
      run ⟨ss, .quoted form '\'' (cs.reverse ++ read)⟩ (p.afterAll (Text.escape '\'' cs)) rest := by
  induction cs generalizing read p with
  | nil => rfl
  | cons c cs ih =>
    have hcons : Text.escape '\'' (c :: cs) = Text.escapeChar '\'' c ++ Text.escape '\'' cs := rfl
    rw [hcons, List.append_assoc, run_escapeChar, ih, List.reverse_cons, List.append_assoc]
    rw [Text.Position.afterAll_append]
    rfl

theorem run_digits (form : Form) (read : List Char) {ds : List Char} (hd : ∀ c ∈ ds, c.isDigit) :
    run ⟨ss, .digits form read⟩ p (ds ++ rest) =
      run ⟨ss, .digits form (ds.reverse ++ read)⟩ (p.afterAll ds) rest := by
  induction ds generalizing read p with
  | nil => rfl
  | cons c ds ih =>
    have hc : c.isDigit := hd c (by simp)
    have hnext : next ⟨ss, .digits form read⟩ p c = .ok ⟨ss, .digits form (c :: read)⟩ := by
      simp only [next, if_pos hc]
    rw [List.cons_append, run_cons hnext, ih _ fun d hm => hd d (by simp [hm]), List.reverse_cons, List.append_assoc]
    rfl

/-- Digits in brackets are read as an index. -/
theorem run_index {i : Nat} (hi : i < UInt64.size) :
    run ⟨ss, .gap⟩ p ((Step.index i).text.toList ++ rest) =
      run ⟨.index i :: ss, .gap⟩ (p.afterAll (Step.index i).text.toList) rest := by
  obtain ⟨d, ds, hds⟩ := List.exists_cons_of_ne_nil (Nat.toDigits_ne_nil : Nat.toDigits 10 i ≠ [])
  have hdigit : ∀ c ∈ d :: ds, c.isDigit := fun c hc => isDigit_of_mem_toDigits (hds ▸ hc)
  have hd : d.isDigit := hdigit d (by simp)
  have hquote : ¬(d = '\'' || d = '"') := by
    intro h
    rcases (by simpa using h : d = '\'' ∨ d = '"') with rfl | rfl <;> simp [Char.isDigit] at hd
  have htext : (Step.index i).text.toList = '[' :: d :: (ds ++ [']']) := by simp [Step.text, hds]
  have hopen : next ⟨ss, .gap⟩ p '[' = .ok ⟨ss, .bracket⟩ := rfl
  have hfirst (q : Text.Position) : next ⟨ss, .bracket⟩ q d = .ok ⟨ss, .digits .bracket [d]⟩ := by
    simp only [next, Text.isBlank_eq_false_of_isDigit hd, Bool.false_eq_true, if_false, if_neg hquote, if_pos hd]
  have hclose (q : Text.Position) :
      next ⟨ss, .digits .bracket (ds.reverse ++ [d])⟩ q ']' = .ok ⟨.index i :: ss, .gap⟩ := by
    have hvalue : natOfDigits (ds.reverse ++ [d]).reverse = i := by
      rw [List.reverse_append, List.reverse_reverse, List.reverse_singleton, List.singleton_append, ← hds,
        natOfDigits_toDigits]
    have hpush : pushIndex ⟨ss, .digits .bracket (ds.reverse ++ [d])⟩ .bracket (ds.reverse ++ [d]) =
        .ok ⟨.index i :: ss, .closing⟩ := by
      simp only [pushIndex, hvalue, if_pos hi, push, if_true]
    have hnot : ¬(']' : Char).isDigit := by decide
    simp only [next, if_neg hnot, hpush]
    rfl
  rw [htext, List.cons_append, List.cons_append, List.append_assoc, run_cons hopen, run_cons (hfirst _),
    run_digits _ _ fun c hc => hdigit c (by simp [hc]), List.singleton_append, run_cons (hclose _)]
  simp [Text.Position.afterAll]

/-- A quoted name in brackets is read as this name. -/
theorem run_name (t : String) :
    run ⟨ss, .gap⟩ p ((Step.name t).text.toList ++ rest) =
      run ⟨.name t :: ss, .gap⟩ (p.afterAll (Step.name t).text.toList) rest := by
  have hopen : next ⟨ss, .gap⟩ p '[' = .ok ⟨ss, .bracket⟩ := rfl
  have hquote (q : Text.Position) : next ⟨ss, .bracket⟩ q '\'' = .ok ⟨ss, .quoted .bracket '\'' []⟩ := rfl
  have hend (q : Text.Position) :
      next ⟨ss, .quoted .bracket '\'' (t.toList.reverse ++ [])⟩ q '\'' = .ok ⟨.name t :: ss, .closing⟩ := by
    simp [next, pushName, push]
  have hclose (q : Text.Position) : next ⟨.name t :: ss, .closing⟩ q ']' = .ok ⟨.name t :: ss, .gap⟩ := rfl
  rw [Step.text_name, List.cons_append, List.cons_append, List.append_assoc, run_cons hopen, run_cons (hquote _),
    run_escaped,
    List.cons_append, run_cons (hend _), List.cons_append, run_cons (hclose _)]
  simp [Text.Position.afterAll]

theorem run_steps {l : Location} (hl : l.Fits) :
    run ⟨ss, .gap⟩ p (l.flatMap fun s => s.text.toList) = .ok (ss.reverse ++ l) := by
  induction l generalizing ss p with
  | nil =>
    show Except.ok ss.reverse = _
    rw [List.append_nil]
  | cons s l ih =>
    have hrest : Location.Fits l := fun t ht => hl t (by simp [ht])
    have hstep : run ⟨ss, .gap⟩ p (s.text.toList ++ l.flatMap fun s => s.text.toList) =
        run ⟨s :: ss, .gap⟩ (p.afterAll s.text.toList) (l.flatMap fun s => s.text.toList) := by
      cases s with
      | index i => exact run_index (hl (.index i) (by simp))
      | name t => exact run_name t
    rw [List.flatMap_cons, hstep, ih hrest, List.reverse_cons, List.append_assoc, List.singleton_append]

end Location.Reading

namespace Location

theorem text_toList (l : Location) : l.text.toList = '$' :: l.flatMap fun s => s.text.toList := by
  simp [text, List.flatMap_map]

/-- Reading inverts writing. -/
theorem read_text {l : Location} (hl : l.Fits) : ofText l.text = .ok l := by
  have hstart : Reading.next .start .start '$' = .ok ⟨[], .gap⟩ := rfl
  rw [ofText, text_toList, Reading.run_cons hstart, Reading.run_steps hl]
  rfl

/-- Different locations have different texts. -/
theorem text_injective {l m : Location} (h : l.text = m.text) : l = m := by
  have hsteps : (l.flatMap fun s => s.text.toList) = m.flatMap fun s => s.text.toList := by
    have hlist := congrArg String.toList h
    rw [text_toList, text_toList] at hlist
    exact (List.cons.inj hlist).2
  clear h
  have hne : ∀ (s : Step) (r : List Char), s.text.toList ++ r ≠ [] := by
    intro s r
    cases s <;> simp [Step.text]
  induction l generalizing m with
  | nil =>
    cases m with
    | nil => rfl
    | cons t m => exact absurd hsteps.symm (hne t _)
  | cons s l ih =>
    cases m with
    | nil => exact absurd hsteps (hne s _)
    | cons t m =>
      obtain ⟨rfl, hrest⟩ := Step.text_append_inj hsteps
      rw [ih hrest]

end Location

end PathQuery
