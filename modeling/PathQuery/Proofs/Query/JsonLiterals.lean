import PathQuery.Proofs.Query.Spelling

namespace PathQuery.Syntax

variable {env : Env} {below : List Mode} {a : Assembly} {k : Nat} {rest read cs ds : List Char} {c : Char} {d : Nat}

theorem comes_jsonChar (ho : c ≠ '[' ∧ c ≠ '\x7b') (hc : c ≠ ']' ∧ c ≠ '\x7d') (hq : c ≠ '"') :
    Comes env ⟨c :: rest, .json d read :: below, a, k⟩ ⟨rest, .json d (c :: read) :: below, a, k⟩ := by
  refine .char fun position => ⟨position.after c, ?_⟩
  simp [Machine.step, Machine.stepIn, Machine.readJson, ho, hc, hq, Machine.past, Machine.goto]

theorem comes_jsonOpen (hc : c = '[' ∨ c = '\x7b') :
    Comes env ⟨c :: rest, .json d read :: below, a, k⟩ ⟨rest, .json (d + 1) (c :: read) :: below, a, k⟩ := by
  refine .char fun position => ⟨position.after c, ?_⟩
  rcases hc with rfl | rfl <;> rfl

/-- A bracket that closes another one than the first. -/
theorem comes_jsonClose (hc : c = ']' ∨ c = '\x7d') :
    Comes env ⟨c :: rest, .json (d + 2) read :: below, a, k⟩ ⟨rest, .json (d + 1) (c :: read) :: below, a, k⟩ := by
  refine .char fun position => ⟨position.after c, ?_⟩
  rcases hc with rfl | rfl <;> rfl

/-- A character of a string that neither ends it nor starts an escape. -/
theorem comes_jsonText (hq : c ≠ '"') (hb : c ≠ '\\') :
    Comes env ⟨c :: rest, .jsonString d read :: below, a, k⟩ ⟨rest, .jsonString d (c :: read) :: below, a, k⟩ := by
  refine .char fun position => ⟨position.after c, ?_⟩
  simp [Machine.step, Machine.stepIn, Machine.readJsonString, hq, hb, Machine.past, Machine.goto]

/-- Behind a backslash any character belongs to the string. -/
theorem comes_jsonEscape : Comes env ⟨'\\' :: c :: rest, .jsonString d read :: below, a, k⟩
    ⟨rest, .jsonString d (c :: '\\' :: read) :: below, a, k⟩ := by
  have hbackslash : Comes env ⟨'\\' :: c :: rest, .jsonString d read :: below, a, k⟩
      ⟨c :: rest, .jsonEscape d ('\\' :: read) :: below, a, k⟩ := .char fun position => ⟨position.after '\\', rfl⟩
  exact hbackslash.trans (.char fun position => ⟨position.after c, rfl⟩)

/-- A digit neither ends a string nor starts an escape. -/
theorem hexValue?_ne {n : Nat} (h : Text.hexValue? c = some n) : c ≠ '"' ∧ c ≠ '\\' := by
  constructor <;> rintro rfl <;> cases h

theorem comes_hexUnit {n : Nat} (h : HexUnit ds n) : Comes env ⟨ds ++ rest, .jsonString d read :: below, a, k⟩
    ⟨rest, .jsonString d (ds.reverse ++ read) :: below, a, k⟩ := by
  cases h with
  | mk h₁ h₂ h₃ h₄ =>
    have hdigit : ∀ {c n rest read}, Text.hexValue? c = some n → Comes env
        ⟨c :: rest, .jsonString d read :: below, a, k⟩ ⟨rest, .jsonString d (c :: read) :: below, a, k⟩ :=
      fun h => comes_jsonText (hexValue?_ne h).1 (hexValue?_ne h).2
    exact (hdigit h₁).trans ((hdigit h₂).trans ((hdigit h₃).trans (hdigit h₄)))

/-- Brackets and escaped quotes do not end a string. -/
theorem comes_stringChars (h : StringChars cs) : Comes env ⟨cs ++ rest, .jsonString d read :: below, a, k⟩
    ⟨rest, .jsonString d (cs.reverse ++ read) :: below, a, k⟩ := by
  induction h generalizing read with
  | nil => exact .refl _
  | @char c cs hq hb hc _ ih =>
    rw [List.reverse_cons, List.append_assoc]
    exact (comes_jsonText hq hb).trans ih
  | @short c e cs hc _ ih =>
    simp only [List.reverse_cons, List.append_assoc]
    exact comes_jsonEscape.trans ih
  | @unit ds cs n hd _ ih =>
    simp only [List.reverse_cons, List.reverse_append, List.append_assoc]
    have hunit : Comes env ⟨ds ++ (cs ++ rest), .jsonString d ('u' :: '\\' :: read) :: below, a, k⟩ _ :=
      comes_hexUnit hd
    rw [← List.append_assoc] at hunit
    exact comes_jsonEscape.trans (hunit.trans ih)

/-- Within a JSON text a part of it is read, and as many brackets are open behind it as before. -/
def Balances (env : Env) (cs : List Char) : Prop :=
  ∀ (rest read : List Char) (below : List Mode) (a : Assembly) (d k : Nat),
    Comes env ⟨cs ++ rest, .json (d + 1) read :: below, a, k⟩ ⟨rest, .json (d + 1) (cs.reverse ++ read) :: below, a, k⟩

theorem balances_nil : Balances env [] := fun _ _ _ _ _ _ => .refl _

theorem Balances.append (h : Balances env cs) (hd : Balances env ds) : Balances env (cs ++ ds) := by
  intro rest read below a d k
  rw [List.append_assoc, List.reverse_append, List.append_assoc]
  exact (h _ _ _ _ _ _).trans (hd _ _ _ _ _ _)

theorem Balances.cons (h : Balances env cs) (ho : c ≠ '[' ∧ c ≠ '\x7b') (hc : c ≠ ']' ∧ c ≠ '\x7d') (hq : c ≠ '"') :
    Balances env (c :: cs) := by
  intro rest read below a d k
  rw [List.reverse_cons, List.append_assoc]
  exact (comes_jsonChar ho hc hq).trans (h _ _ _ _ _ _)

/-- Characters that are neither brackets nor quotes. -/
theorem balances_plain (h : ∀ c ∈ cs, (c ≠ '[' ∧ c ≠ '\x7b') ∧ (c ≠ ']' ∧ c ≠ '\x7d') ∧ c ≠ '"') : Balances env cs := by
  induction cs with
  | nil => exact balances_nil
  | cons c cs ih =>
    obtain ⟨ho, hc, hq⟩ := h c List.mem_cons_self
    exact (ih fun d hd => h d (List.mem_cons_of_mem c hd)).cons ho hc hq

theorem balances_blanks (h : Blanks cs) : Balances env cs := by
  refine balances_plain fun c hc => ?_
  have hspace := h c hc
  simp only [Text.isSpace, Bool.or_eq_true, beq_iff_eq] at hspace
  rcases hspace with ((rfl | rfl) | rfl) | rfl <;> decide

theorem balances_digits (h : ∀ c ∈ cs, c.isDigit = true) : Balances env cs := by
  refine balances_plain fun c hc => ?_
  have hne := fun e => ne_of_isDigit (d := e) (h c hc)
  exact ⟨⟨hne _ rfl, hne _ rfl⟩, ⟨hne _ rfl, hne _ rfl⟩, hne _ rfl⟩

theorem balances_unsigned (h : Unsigned cs) : Balances env cs := by
  obtain ⟨hw, -, hf, he⟩ := h
  refine (balances_digits hw.2).append (.append ?_ ?_)
  · cases hf with
    | none => exact balances_nil
    | point hd => exact (balances_digits hd.2).cons (by decide) (by decide) (by decide)
  · cases he with
    | none => exact balances_nil
    | @mark e sign ds hm hs hd =>
      have hsign : Balances env sign := balances_plain (by rcases hs with rfl | rfl | rfl <;> simp)
      have hsigned := hsign.append (balances_digits hd.2)
      rcases hm with rfl | rfl
      · exact hsigned.cons (by decide) (by decide) (by decide)
      · exact hsigned.cons (by decide) (by decide) (by decide)

/-- A string may hold brackets. -/
theorem balances_string (h : StringChars cs) : Balances env ('"' :: (cs ++ ['"'])) := by
  intro rest read below a d k
  have hopen : Comes env ⟨'"' :: (cs ++ ('"' :: rest)), .json (d + 1) read :: below, a, k⟩
      ⟨cs ++ ('"' :: rest), .jsonString (d + 1) ('"' :: read) :: below, a, k⟩ :=
    .char fun position => ⟨position.after '"', rfl⟩
  have hclose : Comes env ⟨'"' :: rest, .jsonString (d + 1) (cs.reverse ++ '"' :: read) :: below, a, k⟩
      ⟨rest, .json (d + 1) ('"' :: (cs.reverse ++ '"' :: read)) :: below, a, k⟩ :=
    .char fun position => ⟨position.after '"', rfl⟩
  simpa using hopen.trans ((comes_stringChars h).trans hclose)

theorem Balances.brackets {o e : Char} (h : Balances env cs) (ho : o = '[' ∨ o = '\x7b') (he : e = ']' ∨ e = '\x7d') :
    Balances env (o :: (cs ++ [e])) := by
  intro rest read below a d k
  have hinner := h (e :: rest) (o :: read) below a (d + 1) k
  simpa using (comes_jsonOpen ho).trans (hinner.trans (comes_jsonClose he))

theorem balances_json {part : JsonPart} (h : IsJson part cs) : Balances env cs := by
  induction h with
  | null | true | false => exact balances_plain (by simp)
  | number h => exact balances_unsigned h
  | negative h => exact (balances_unsigned h).cons (by decide) (by decide) (by decide)
  | string h => exact balances_string h
  | container _ ih => exact ih
  | emptyArray hb => exact (balances_blanks hb).brackets (.inl rfl) (.inl rfl)
  | array _ ih => exact ih.brackets (.inl rfl) (.inl rfl)
  | emptyObject hb => exact (balances_blanks hb).brackets (.inr rfl) (.inr rfl)
  | object _ ih => exact ih.brackets (.inr rfl) (.inr rfl)
  | element hb _ ha ih => exact (balances_blanks hb).append (ih.append (balances_blanks ha))
  | member hb hn ha _ ih =>
    have hbehind := (balances_blanks ha).append (ih.cons (c := ':') (by decide) (by decide) (by decide))
    exact (balances_blanks hb).append ((balances_string hn).append hbehind)
  | last _ ih => exact ih
  | more _ _ ih ihs => exact ih.append (ihs.cons (by decide) (by decide) (by decide))

/-- An array or object is what its first and its last bracket enclose. -/
theorem IsJson.brackets (h : IsJson .container cs) : ∃ o inner e, cs = o :: (inner ++ [e]) ∧ (o = '[' ∨ o = '\x7b') ∧
    (e = ']' ∨ e = '\x7d') ∧ ∀ env, Balances env inner := by
  cases h with
  | emptyArray hb => exact ⟨_, _, _, rfl, .inl rfl, .inl rfl, fun _ => balances_blanks hb⟩
  | array h => exact ⟨_, _, _, rfl, .inl rfl, .inl rfl, fun _ => balances_json h⟩
  | emptyObject hb => exact ⟨_, _, _, rfl, .inr rfl, .inr rfl, fun _ => balances_blanks hb⟩
  | object h => exact ⟨_, _, _, rfl, .inr rfl, .inr rfl, fun _ => balances_json h⟩

theorem IsJson.opens (h : IsJson .container (c :: cs)) : c = '[' ∨ c = '\x7b' := by
  obtain ⟨o, inner, e, htext, ho, -⟩ := h.brackets
  rwa [(List.cons.inj htext).1]

/-- The reader comes to the last bracket of an array or object, with the text before it. -/
theorem comes_lastBracket (h : IsJson .container cs) : ∃ inner e, cs = inner ++ [e] ∧ (e = ']' ∨ e = '\x7d') ∧
    ∀ {env rest below a k},
      Comes env ⟨cs ++ rest, .operand :: below, a, k⟩ ⟨e :: rest, .json 1 inner.reverse :: below, a, k⟩ := by
  obtain ⟨o, inner, e, rfl, ho, he, hb⟩ := h.brackets
  refine ⟨o :: inner, e, rfl, he, fun {env rest below a k} => ?_⟩
  have hstart : Comes env ⟨o :: (inner ++ (e :: rest)), .operand :: below, a, k⟩
      ⟨o :: (inner ++ (e :: rest)), .json 0 [] :: below, a, k⟩ := by
    refine .char fun position => ⟨position, ?_⟩
    rcases ho with rfl | rfl <;> rfl
  have hinner := hb env (e :: rest) [o] below a 0 k
  simpa using hstart.trans ((comes_jsonOpen ho).trans hinner)

/-- A JSON text ends with its last bracket. -/
theorem step_lastBracket {position : Text.Position} (hc : c = ']' ∨ c = '\x7d') :
    Machine.step ⟨c :: rest, position, .json 1 read :: below, a, k⟩ env =
      Machine.endJson ⟨rest, position.after c, .json 1 read :: below, a, k⟩ env below (c :: read) := by
  rcases hc with rfl | rfl <;> rfl

/-- A JSON array or object is read to its last bracket. -/
theorem comes_json (j : JsonText env) : Comes env ⟨j.token.text ++ rest, .operand :: below, a, k⟩
    ⟨rest, below, a.push (.literal j.value), k⟩ := by
  obtain ⟨inner, e, htext, he, hcomes⟩ := comes_lastBracket j.container
  refine hcomes.trans (.char fun position => ⟨position.after e, ?_⟩)
  rw [step_lastBracket he, Machine.endJson, List.reverse_cons, List.reverse_reverse, ← htext, j.reads]
  rfl

theorem leads_json (j : JsonText env) {ts : List Token} :
    Leads env ⟨j.token :: ts, .operand :: below, a, k⟩ ⟨ts, below, a.push (.literal j.value), k⟩ :=
  .token rfl fun _ _ => comes_json j

end PathQuery.Syntax
