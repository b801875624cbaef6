import PathQuery.Proofs.Query.Reading

namespace PathQuery.Syntax

variable {env : Env} {below : List Mode} {a : Assembly} {k : Nat} {rest : List Char} {ts : List Token}

/-- What can stand behind a bare name. -/
def EndsName (ts : List Token) : Prop := ∀ t ∈ ts.head?, t.apart = true ∨ isDelimiter t.first = true

/-- What can stand behind a path or an expression that is complete. -/
inductive Stops : List Token → Prop
  | nil : Stops []
  | close {c : Char} (h : c = ')' ∨ c = ']' ∨ c = ',') (ts : List Token) : Stops (.char c :: ts)
  | likes (ts : List Token) : Stops (likesToken :: ts)
  | binary (op : BinaryOp) (ts : List Token) : Stops (binaryToken op :: ts)

theorem isDelimiter_of_isSpace {c : Char} (h : Text.isSpace c = true) : isDelimiter c = true := by
  simp [isDelimiter, h]

/-- A property of blanks and of what closes holds of the character behind a path or an expression. -/
theorem Stops.head (h : Stops ts) (hf : Follows ts rest) {p : Char → Prop} (hs : ∀ c, Text.isSpace c = true → p c)
    (hp : p ')' ∧ p ']' ∧ p ',') : ∀ c ∈ rest.head?, p c := by
  refine hf.head hs ?_
  intro t ht
  cases h with
  | nil => cases ht
  | close hc ts =>
    obtain rfl : Token.char _ = t := by simpa using ht
    rcases hc with rfl | rfl | rfl
    · exact .inr hp.1
    · exact .inr hp.2.1
    · exact .inr hp.2.2
  | likes ts =>
    obtain rfl : likesToken = t := by simpa using ht
    exact .inl rfl
  | binary op ts =>
    obtain rfl : binaryToken op = t := by simpa using ht
    exact .inl (by cases op <;> rfl)

theorem Stops.endsName (h : Stops ts) : EndsName ts := by
  intro t ht
  cases h with
  | nil => cases ht
  | close hc ts =>
    obtain rfl : Token.char _ = t := by simpa using ht
    rcases hc with rfl | rfl | rfl <;> exact .inr (by decide)
  | likes ts =>
    obtain rfl : likesToken = t := by simpa using ht
    exact .inl rfl
  | binary op ts =>
    obtain rfl : binaryToken op = t := by simpa using ht
    exact .inl (by cases op <;> rfl)

section names

variable {u : BareUse} {read : List Char}

theorem comes_bareName {cs : List Char} (h : ∀ c ∈ cs, isDelimiter c = false) :
    Comes env ⟨cs ++ rest, .bareName u read :: below, a, k⟩
      ⟨rest, .bareName u (cs.reverse ++ read) :: below, a, k⟩ := by
  induction cs generalizing read with
  | nil => exact .refl _
  | cons c cs ih =>
    have hc := h c (by simp)
    have hstep : Comes env ⟨c :: (cs ++ rest), .bareName u read :: below, a, k⟩
        ⟨cs ++ rest, .bareName u (c :: read) :: below, a, k⟩ := by
      refine .char fun position => ⟨position.after c, ?_⟩
      simp [Machine.step, Machine.stepIn, Machine.readBareName, hc, Machine.past, Machine.goto]
    rw [List.reverse_cons, List.append_assoc]
    exact hstep.trans (ih fun d hd => h d (List.mem_cons_of_mem _ hd))

/-- The modes behind a bare name. -/
def nameModes (name : String) (below : List Mode) : BareUse → List Mode
  | .member => below
  | .query => .queryCall name :: below
  | .operand => .operandName name :: below

/-- What is assembled when a bare name ends. -/
def nameAssembly (name : String) (a : Assembly) : BareUse → Assembly
  | .member => a.pushSelector (.member name)
  | _ => a

theorem comes_endName (h : ∀ c ∈ rest.head?, isDelimiter c = true) :
    Comes env ⟨rest, .bareName u read :: below, a, k⟩
      ⟨rest, nameModes (String.ofList read.reverse) below u, nameAssembly (String.ofList read.reverse) a u, k⟩ := by
  cases rest with
  | nil =>
    refine .atEnd fun position => ⟨position, ?_⟩
    cases u <;> rfl
  | cons c rest =>
    refine .char fun position => ⟨position, ?_⟩
    simp only [Machine.step, Machine.stepIn, Machine.readBareName, h c rfl, if_true]
    cases u <;> rfl

/-- A bare name is read to its end. -/
theorem comes_name (n : BareName) (he : EndsName ts) (hf : Follows ts rest) :
    Comes env ⟨n.token.text ++ rest, .bareName u [] :: below, a, k⟩
      ⟨rest, nameModes n.value below u, nameAssembly n.value a u, k⟩ := by
  have hend : ∀ c ∈ rest.head?, isDelimiter c = true := hf.head (fun _ => isDelimiter_of_isSpace) he
  have hread : Comes env ⟨n.token.text ++ rest, .bareName u [] :: below, a, k⟩
      ⟨rest, .bareName u ((n.first :: n.others).reverse ++ []) :: below, a, k⟩ := comes_bareName n.plain
  have hname := hread.trans (comes_endName hend)
  rwa [List.append_nil, List.reverse_reverse] at hname

end names

section quotes

variable {quote : Char} {u : QuotedUse} {read : List Char}

theorem comes_escape {e : Text.Escape} {es : List Char} {d : Char} (h : e.Reads Text.nameEscape? es d) :
    Comes env ⟨es ++ rest, .escape quote u read e :: below, a, k⟩
      ⟨rest, .quoted quote u (d :: read) :: below, a, k⟩ := by
  induction h with
  | @last e c d hn =>
    refine .char fun position => ⟨position.after c, ?_⟩
    simp only [Machine.step, Machine.stepIn, Machine.readEscape, hn]
    rfl
  | @more e f c d cs hn _ ih =>
    refine Comes.trans (.char fun position => ⟨position.after c, ?_⟩) ih
    simp only [Machine.step, Machine.stepIn, Machine.readEscape, hn]
    rfl

section escapes

open Text Text.Escape

/-- The first three digits of a unit, before the one that completes it. -/
theorem HexUnit.reads {unit : Nat → Nat → Text.Escape}
    (hunit : ∀ {count code d c}, count < 3 → hexValue? c = some d →
      (unit count code).next nameEscape? c = .more (unit (count + 1) (code * 16 + d)))
    {digits behind : List Char} {n : Nat} {x : Char} (h : HexUnit digits n)
    (hlast : ∀ code d c, hexValue? c = some d → code * 16 + d = n → Reads nameEscape? (unit 3 code) (c :: behind) x) :
    Reads nameEscape? (unit 0 0) (digits ++ behind) x := by
  obtain ⟨h₁, h₂, h₃, h₄⟩ := h
  exact .more (hunit (by decide) h₁) (.more (hunit (by decide) h₂) (.more (hunit (by decide) h₃)
    (hlast _ _ _ h₄ (by rw [Nat.zero_mul, Nat.zero_add]))))

/-- An escape is read as the character that it stands for. -/
theorem EscapeText.reads {es : List Char} {x : Char} (h : EscapeText es x) : Reads nameEscape? .backslash es x := by
  cases h with
  | @short c _ h =>
    have hu : c ≠ 'u' := by
      rintro rfl
      cases h
    exact .last (next_backslash hu h)
  | @unit digits n h hh hl =>
    have hstart : Text.Escape.backslash.next nameEscape? 'u' = .more (.unit 0 0) := rfl
    have hdigits : Reads nameEscape? (.unit 0 0) (digits ++ []) (Char.ofNat n) := by
      refine h.reads next_unit fun code d c hd hn => .last ?_
      simp [next, hd, hn, hh, hl]
    rw [List.append_nil] at hdigits
    exact .more hstart hdigits
  | @pair first second m n hm hn hh hl =>
    have hstart : Text.Escape.backslash.next nameEscape? 'u' = .more (.unit 0 0) := rfl
    have hbackslash : (Text.Escape.pair m).next nameEscape? '\\' = .more (.pairBackslash m) := rfl
    have hagain : (Text.Escape.pairBackslash m).next nameEscape? 'u' = .more (.pairUnit m 0 0) := rfl
    have hsecond : Reads nameEscape? (.pairUnit m 0 0) (second ++ []) (Char.ofNat (joinSurrogates m n)) := by
      refine hn.reads next_pairUnit fun code d c hd hcode => .last ?_
      simp [next, hd, hcode, hl]
    rw [List.append_nil] at hsecond
    refine .more hstart (hm.reads next_unit fun code d c hd hcode => ?_)
    have hfirst : (Text.Escape.unit 3 code).next nameEscape? c = .more (.pair m) := by
      simp [next, hd, hcode, hh]
    exact .more hfirst (.more hbackslash (.more hagain hsecond))

end escapes

theorem comes_spelled (hq : quote ≠ '\\') {body value : List Char} (h : Spells quote body value) :
    Comes env ⟨body ++ rest, .quoted quote u read :: below, a, k⟩
      ⟨rest, .quoted quote u (value.reverse ++ read) :: below, a, k⟩ := by
  induction h generalizing read with
  | nil => exact .refl _
  | @char c body value hc hb _ ih =>
    have hstep : Comes env ⟨c :: (body ++ rest), .quoted quote u read :: below, a, k⟩
        ⟨body ++ rest, .quoted quote u (c :: read) :: below, a, k⟩ := by
      refine .char fun position => ⟨position.after c, ?_⟩
      simp only [Machine.step, Machine.stepIn, Machine.readQuoted, hc, hb, if_false]
      rfl
    rw [List.reverse_cons, List.append_assoc]
    exact hstep.trans ih
  | @escape es d body value he _ ih =>
    have hstep : Comes env ⟨'\\' :: (es ++ (body ++ rest)), .quoted quote u read :: below, a, k⟩
        ⟨es ++ (body ++ rest), .escape quote u read .backslash :: below, a, k⟩ := by
      refine .char fun position => ⟨position.after '\\', ?_⟩
      simp only [Machine.step, Machine.stepIn, Machine.readQuoted, hq.symm, if_false, if_true]
      rfl
    rw [List.reverse_cons, List.append_assoc, List.cons_append, List.append_assoc]
    exact hstep.trans ((comes_escape he.reads).trans ih)

/-- What is assembled when a text in quotes ends. -/
def quotedAssembly (value : String) (a : Assembly) : QuotedUse → Assembly
  | .member => a.pushSelector (.member value)
  | .literal => a.push (.literal (.string value))

/-- A text in quotes is read behind its first quote. -/
theorem comes_quoted (t : QuotedText) :
    Comes env ⟨t.token.others ++ rest, .quoted t.quote u [] :: below, a, k⟩
      ⟨rest, below, quotedAssembly t.value a u, k⟩ := by
  have hq : t.quote ≠ '\\' := by
    rcases t.isQuote with h | h <;> rw [h] <;> decide
  have hbody : Comes env ⟨t.body ++ (t.quote :: rest), .quoted t.quote u [] :: below, a, k⟩
      ⟨t.quote :: rest, .quoted t.quote u (t.chars.reverse ++ []) :: below, a, k⟩ := comes_spelled hq t.spells
  have hend : Comes env ⟨t.quote :: rest, .quoted t.quote u (t.chars.reverse ++ []) :: below, a, k⟩
      ⟨rest, below, quotedAssembly t.value a u, k⟩ := by
    refine .char fun position => ⟨position.after t.quote, ?_⟩
    simp only [Machine.step, Machine.stepIn, Machine.readQuoted, if_true, List.append_nil]
    cases u <;> simp [Machine.endQuoted, quotedAssembly, QuotedText.value, Machine.past, Machine.goto,
      Machine.emitSelector, Machine.emitLiteral, Machine.emit]
  have hall := hbody.trans hend
  rwa [QuotedText.token, List.append_assoc]

end quotes

section

variable {n : BareName}

/-- A character that ends no name is none of those that do. -/
theorem ne_of_isDelimiter {c d : Char} (hc : isDelimiter c = false) (hd : isDelimiter d = true) : c ≠ d := by
  rintro rfl
  simp [hc] at hd

theorem isSpace_of_isDelimiter {c : Char} (hc : isDelimiter c = false) : Text.isSpace c = false := by
  cases h : Text.isSpace c with
  | false => rfl
  | true => simp [isDelimiter_of_isSpace h] at hc

theorem BareName.first_plain (n : BareName) : isDelimiter n.first = false := n.plain _ (by simp)

theorem QuotedText.cases_quote (t : QuotedText) {p : Char → Prop} (h : p '\'' ∧ p '"') : p t.quote := by
  rcases t.isQuote with ht | ht
  · exact ht ▸ h.1
  · exact ht ▸ h.2

/-- A member name behind a dot. -/
theorem leads_dotName (n : MemberName) (he : EndsName ts) :
    Leads env ⟨n.token :: ts, .dotName :: below, a, k⟩ ⟨ts, below, a.pushSelector (.member n.value), k⟩ := by
  refine .token rfl fun rest hf => ?_
  cases n with
  | bare n =>
    refine Comes.trans (.char fun position => ⟨position, ?_⟩) (comes_name (u := .member) n he hf)
    have hp := n.first_plain
    have hne := fun d => ne_of_isDelimiter (d := d) hp
    simp [Machine.step, Machine.stepIn, Machine.readDotName, isSpace_of_isDelimiter hp, hne '*' (by decide),
      hne '\'' (by decide), hne '"' (by decide), hp, Machine.goto, MemberName.token, BareName.token, Token.text]
  | quoted t =>
    refine Comes.trans (.char fun position => ⟨position.after t.quote, ?_⟩) (comes_quoted (u := .member) t)
    refine t.cases_quote (p := fun c => Machine.step ⟨c :: _, position, _, a, k⟩ env =
      .ok ⟨_, position.after c, .quoted c .member [] :: below, a, k⟩) ⟨rfl, rfl⟩

/-- A member name between brackets. -/
theorem leads_elementName (n : ElementName) (he : EndsName ts) :
    Leads env ⟨n.token :: ts, .element :: below, a, k⟩ ⟨ts, .path :: below, a.pushSelector (.member n.value), k⟩ := by
  refine .token rfl fun rest hf => ?_
  cases n with
  | bare n hd hn =>
    refine Comes.trans (.char fun position => ⟨position, ?_⟩) (comes_name (u := .member) n he hf)
    have hp := n.first_plain
    have hne := fun d => ne_of_isDelimiter (d := d) hp
    simp [Machine.step, Machine.stepIn, Machine.readElement, isSpace_of_isDelimiter hp, hne '*' (by decide),
      hne '\'' (by decide), hne '"' (by decide), hd, hn, hne ':' (by decide), hne '?' (by decide), hne '(' (by decide),
      hne '$' (by decide), hne '@' (by decide), hp, Machine.goto, ElementName.token, BareName.token, Token.text]
  | quoted t =>
    refine Comes.trans (.char fun position => ⟨position.after t.quote, ?_⟩) (comes_quoted (u := .member) t)
    exact t.cases_quote (p := fun c => Machine.step ⟨c :: _, position, _, a, k⟩ env =
      .ok ⟨_, position.after c, .quoted c .member [] :: .path :: below, a, k⟩) ⟨rfl, rfl⟩

theorem endsName_char {c : Char} (h : isDelimiter c = true) : EndsName (.char c :: ts) := by
  intro t ht
  obtain rfl : Token.char c = t := by simpa using ht
  exact .inr h

/-- Opens a call that has been named. -/
theorem leads_openCall (f : Callee env) {modes : List Mode} {mode : Mode} (hm : skipsBlanks mode = true)
    (hs : ∀ rest position, Machine.step ⟨'(' :: rest, position, mode :: below, a, k⟩ env =
      (Machine.openCall ⟨'(' :: rest, position, mode :: below, a, k⟩ env f.name.value '(' rest).map
        (·.goto (.firstArgument :: .arguments :: modes))) :
    Leads env ⟨.char '(' :: ts, mode :: below, a, k⟩
      ⟨ts, .firstArgument :: .arguments :: modes, (a.push .current).openScope (.call f.function), k⟩ := by
  refine .char hm fun rest position => ⟨position.after '(', ?_⟩
  rw [hs, Machine.openCall, f.found]
  rfl

/-- What can start the name of a function does not end a name. -/
theorem isDelimiter_of_isNameStart {c : Char} (h : isNameStart c = true) : isDelimiter c = false := by
  cases hd : isDelimiter c with
  | false => rfl
  | true =>
    simp only [isDelimiter, Bool.or_eq_true, List.contains_iff_mem] at hd
    obtain hspace | hd := hd
    · simp only [Text.isSpace, Bool.or_eq_true, beq_iff_eq] at hspace
      rcases hspace with ((rfl | rfl) | rfl) | rfl <;> exact absurd h (by decide)
    · have hall : (".[](),:'\"=!<>~|&+*/@$?\x7b\x7d".toList.all fun d => !isNameStart d) = true := by decide
      have hc := List.all_eq_true.1 hall c hd
      rw [h] at hc
      cases hc

theorem isDigit_of_isNameStart {c : Char} (h : isNameStart c = true) : c.isDigit = false := by
  cases hd : c.isDigit with
  | false => rfl
  | true =>
    have hr : 48 ≤ c.toNat ∧ c.toNat ≤ 57 := by
      simpa [Char.isDigit, UInt32.le_iff_toNat_le] using hd
    have hdigits : ∀ n : Fin 10, isNameStart (Char.ofNat (48 + n)) = false := by decide
    have hc : c = Char.ofNat (48 + (c.toNat - 48)) := by
      rw [Nat.add_sub_cancel' hr.1, Char.ofNat_toNat]
    have hn : isNameStart c = false := by
      rw [hc]
      exact hdigits ⟨c.toNat - 48, by omega⟩
    rw [hn] at h
    cases h

/-- A name in an expression, behind which it is known what it is. -/
theorem leads_operandName (n : BareName) (hs : isNameStart n.first = true) (he : EndsName ts) :
    Leads env ⟨n.token :: ts, .operand :: below, a, k⟩ ⟨ts, .operandName n.value :: below, a, k⟩ := by
  refine .token rfl fun rest hf => ?_
  refine Comes.trans (.char fun position => ⟨position, ?_⟩) (comes_name (u := .operand) n he hf)
  have hp := n.first_plain
  have hne := fun d => ne_of_isDelimiter (d := d) hp
  have hminus : n.first ≠ '-' := by
    intro h
    rw [h] at hs
    exact absurd hs (by decide)
  simp [Machine.step, Machine.stepIn, Machine.readOperand, isSpace_of_isDelimiter hp, hne '$' (by decide),
    hne '@' (by decide), hne '(' (by decide), hne '\'' (by decide), hne '"' (by decide), hne '!' (by decide), hminus,
    isDigit_of_isNameStart hs, hne '[' (by decide), hne '\x7b' (by decide), hs, Machine.goto, BareName.token,
    Token.text]

/-- The start of a call in an expression. -/
theorem leads_operandCall (f : Callee env) :
    Leads env ⟨f.name.token :: .char '(' :: ts, .operand :: below, a, k⟩
      ⟨ts, .firstArgument :: .arguments :: below, (a.push .current).openScope (.call f.function), k⟩ :=
  (leads_operandName f.name f.starts (endsName_char (by decide))).trans (leads_openCall f rfl fun _ _ => rfl)

/-- The start of a query that is a call. -/
theorem leads_queryCall (f : Callee env) :
    Leads env ⟨f.name.token :: .char '(' :: ts, [.start], a, k⟩
      ⟨ts, [.firstArgument, .arguments, .path], (a.push .current).openScope (.call f.function), k⟩ := by
  refine Leads.trans (d := ⟨.char '(' :: ts, [.queryCall f.name.value], a, k⟩) ?_
    (leads_openCall f rfl fun _ _ => rfl)
  refine .token rfl fun rest hf => ?_
  refine Comes.trans (.char fun position => ⟨position, ?_⟩)
    (comes_name (u := .query) f.name (endsName_char (by decide)) hf)
  have hp := f.name.first_plain
  have hdollar : f.name.first ≠ '$' := ne_of_isDelimiter hp (by decide)
  simp [Machine.step, Machine.stepIn, Machine.readStart, isSpace_of_isDelimiter hp, hdollar, f.starts, Machine.goto,
    BareName.token, Token.text]

end

section integers

variable {bound : Bound} {read : List Char} {t : Token}

theorem isSpace_of_isDigit {c : Char} (h : c.isDigit = true) : Text.isSpace c = false := by
  cases hs : Text.isSpace c with
  | false => rfl
  | true =>
    have hb := Text.isBlank_of_isSpace c hs
    rw [Text.isBlank_eq_false_of_isDigit h] at hb
    cases hb

theorem isDigit_of_isSpace {c : Char} (h : Text.isSpace c = true) : c.isDigit = false := by
  cases hd : c.isDigit with
  | false => rfl
  | true => simp [isSpace_of_isDigit hd] at h

theorem ne_of_isDigit {c d : Char} (hc : c.isDigit = true) (hd : d.isDigit = false) : c ≠ d := by
  rintro rfl
  simp [hc] at hd

theorem comes_digits {ds : List Char} (h : ∀ c ∈ ds, c.isDigit = true) :
    Comes env ⟨ds ++ rest, .digits bound read :: below, a, k⟩
      ⟨rest, .digits bound (ds.reverse ++ read) :: below, a, k⟩ := by
  induction ds generalizing read with
  | nil => exact .refl _
  | cons c ds ih =>
    have hstep : Comes env ⟨c :: (ds ++ rest), .digits bound read :: below, a, k⟩
        ⟨ds ++ rest, .digits bound (c :: read) :: below, a, k⟩ := by
      refine .char fun position => ⟨position.after c, ?_⟩
      simp only [Machine.step, Machine.stepIn, Machine.readDigits, h c (by simp), if_true]
      rfl
    rw [List.reverse_cons, List.append_assoc]
    exact hstep.trans (ih fun d hd => h d (List.mem_cons_of_mem _ hd))

theorem comes_endDigits (h : ∀ c ∈ rest.head?, c.isDigit = false) :
    Comes env ⟨rest, .digits bound read :: below, a, k⟩ ⟨rest, .boundEnd bound read :: below, a, k⟩ := by
  cases rest with
  | nil => exact .atEnd fun position => ⟨position, rfl⟩
  | cons c rest =>
    refine .char fun position => ⟨position, ?_⟩
    simp only [Machine.step, Machine.stepIn, Machine.readDigits, h c rfl]
    rfl

/-- What the reader holds of a bound that may be missing. -/
def boundRead (i : Option Integer) : List Char := (i.elim [] fun i => i.first :: i.digits).reverse

/-- What can stand behind a bound. -/
def EndsBound (t : Token) : Prop := t.first = ':' ∨ t.first = ']' ∨ t.first = ','

theorem EndsBound.cases_first (h : EndsBound t) {p : Char → Prop} (hp : p ':' ∧ p ']' ∧ p ',') : p t.first := by
  rcases h with h | h | h
  · exact h ▸ hp.1
  · exact h ▸ hp.2.1
  · exact h ▸ hp.2.2

theorem leads_integer (i : Integer) (ht : EndsBound t) :
    Leads env ⟨i.token :: t :: ts, .integer bound :: below, a, k⟩
      ⟨t :: ts, .boundEnd bound (boundRead (some i)) :: below, a, k⟩ := by
  refine .token rfl fun rest hf => ?_
  have hend : ∀ c ∈ rest.head?, c.isDigit = false := by
    refine hf.head (fun _ => isDigit_of_isSpace) ?_
    intro u hu
    obtain rfl : t = u := by simpa using hu
    exact .inr (ht.cases_first (p := fun c => c.isDigit = false) (by decide))
  rcases i.starts with hs | hs
  · have hsign : Comes env ⟨i.first :: (i.digits ++ rest), .integer bound :: below, a, k⟩
        ⟨i.digits ++ rest, .digits bound [i.first] :: below, a, k⟩ := by
      rw [hs]
      exact .char fun position => ⟨_, rfl⟩
    have hdigits := hsign.trans ((comes_digits i.areDigits).trans (comes_endDigits hend))
    rwa [← List.reverse_cons] at hdigits
  · have hfirst : Comes env ⟨i.first :: (i.digits ++ rest), .integer bound :: below, a, k⟩
        ⟨(i.first :: i.digits) ++ rest, .digits bound [] :: below, a, k⟩ := by
      have hminus : i.first ≠ '-' := ne_of_isDigit hs rfl
      refine .char fun position => ⟨position, ?_⟩
      simp only [Machine.step, Machine.stepIn, Machine.readInteger, isSpace_of_isDigit hs, hminus]
      rfl
    have hall : ∀ c ∈ i.first :: i.digits, c.isDigit = true := by
      intro c hc
      rcases List.mem_cons.1 hc with rfl | hc
      · exact hs
      · exact i.areDigits c hc
    have hdigits := hfirst.trans ((comes_digits hall).trans (comes_endDigits hend))
    rwa [List.append_nil] at hdigits

/-- A bound, which may be missing. -/
theorem leads_bound (i : Option Integer) (ht : EndsBound t) :
    Leads env ⟨SliceText.boundTokens i ++ t :: ts, .integer bound :: below, a, k⟩
      ⟨t :: ts, .boundEnd bound (boundRead i) :: below, a, k⟩ := by
  cases i with
  | some i => exact leads_integer i ht
  | none =>
    refine .keep rfl fun rest => ?_
    refine ht.cases_first (p := fun c => Comes env ⟨c :: rest, .integer bound :: below, a, k⟩
      ⟨c :: rest, .boundEnd bound [] :: below, a, k⟩) ⟨?_, ?_, ?_⟩
    all_goals
      exact Comes.trans (.char fun position => ⟨position, rfl⟩) (comes_endDigits (by simp))

theorem readBound_boundRead (m : Machine) (i : Option Integer) :
    m.readBound (boundRead i) = .ok (i.map (·.value)) := by
  cases i with
  | none => rfl
  | some i => simp [Machine.readBound, boundRead, i.reads]

/-- Behind the integer that an index or slice ends with. -/
theorem leads_boundEnd (i : Option Integer) {s : Selector}
    (hs : ∀ m : Machine, m.boundSelector (i.map (·.value)) bound = .ok s) (ht : t.first = ']' ∨ t.first = ',') :
    Leads env ⟨t :: ts, .boundEnd bound (boundRead i) :: below, a, k⟩ ⟨t :: ts, below, a.pushSelector s, k⟩ := by
  refine .keep rfl fun rest => .char fun position => ⟨position, ?_⟩
  have hspace : Text.isSpace t.first = false := by
    rcases ht with h | h <;> rw [h] <;> rfl
  have hclose : (t.first = ']' || t.first = ',') = true := by simpa using ht
  simp only [Machine.step, Machine.stepIn, Machine.readBoundEnd, hspace, hclose, readBound_boundRead, if_true]
  simp [Except.bind, Except.map, hs, Machine.emitSelector, Machine.emit, Machine.goto]

/-- An integer or a colon starts an index or slice. -/
theorem leads_firstBound (i : Option Integer) (ht : EndsBound t) (hc : i = none → t.first = ':') :
    Leads env ⟨SliceText.boundTokens i ++ t :: ts, .element :: below, a, k⟩
      ⟨t :: ts, .boundEnd .first (boundRead i) :: below, a, k⟩ := by
  cases i with
  | none =>
    refine .keep rfl fun rest => .char fun position => ⟨position, ?_⟩
    rw [hc rfl]
    rfl
  | some i =>
    refine Leads.trans (d := ⟨i.token :: t :: ts, .integer .first :: below, a, k⟩) ?_ (leads_integer i ht)
    refine .keep rfl fun rest => .char fun position => ⟨position, ?_⟩
    show Machine.step ⟨i.first :: rest, position, _, a, k⟩ env = .ok ⟨i.first :: rest, position, _, a, k⟩
    rcases i.starts with hs | hs
    · rw [hs]
      rfl
    · have hne := fun d => ne_of_isDigit (d := d) hs
      simp only [Machine.step, Machine.stepIn, Machine.readElement, isSpace_of_isDigit hs, hs, hne '*' rfl,
        hne '\'' rfl, hne '"' rfl]
      simp [Machine.goto]

/-- An index. -/
theorem leads_index (i : Integer) (ht : t.first = ']' ∨ t.first = ',') :
    Leads env ⟨i.token :: t :: ts, .element :: below, a, k⟩ ⟨t :: ts, below, a.pushSelector (.index i.value), k⟩ :=
  (leads_firstBound (some i) (.inr ht) nofun).trans (leads_boundEnd (some i) (fun _ => rfl) ht)

theorem endsBound_colon : EndsBound (.char ':') := .inl rfl

/-- A colon ends the first bound. -/
theorem leads_firstColon (i : Option Integer) :
    Leads env ⟨.char ':' :: ts, .boundEnd .first (boundRead i) :: below, a, k⟩
      ⟨ts, .integer (.stop (i.map (·.value))) :: below, a, k⟩ := by
  refine .char rfl fun rest position => ⟨position.after ':', ?_⟩
  show (Machine.readBound _ (boundRead i)).map _ = _
  rw [readBound_boundRead]
  rfl

/-- A second colon ends the second bound. -/
theorem leads_secondColon (start : Option Int) (i : Option Integer) :
    Leads env ⟨.char ':' :: ts, .boundEnd (.stop start) (boundRead i) :: below, a, k⟩
      ⟨ts, .integer (.step start (i.map (·.value))) :: below, a, k⟩ := by
  refine .char rfl fun rest position => ⟨position.after ':', ?_⟩
  show (Machine.readBound _ (boundRead i)).map _ = _
  rw [readBound_boundRead]
  rfl

/-- A slice. -/
theorem leads_slice (s : SliceText) (ht : t.first = ']' ∨ t.first = ',') :
    Leads env ⟨s.tokens ++ t :: ts, .element :: below, a, k⟩ ⟨t :: ts, below, a.pushSelector (.slice s.slice), k⟩ := by
  obtain ⟨start, stop, step, hz⟩ := s
  have hstart : ∀ {others}, Leads env
      ⟨SliceText.boundTokens start ++ .char ':' :: others, .element :: below, a, k⟩
      ⟨others, .integer (.stop (start.map (·.value))) :: below, a, k⟩ := fun {others} =>
    (leads_firstBound start endsBound_colon fun _ => rfl).trans (leads_firstColon start)
  cases step with
  | none =>
    have hstop : Leads env
        ⟨SliceText.boundTokens stop ++ t :: ts, .integer (.stop (start.map (·.value))) :: below, a, k⟩
        ⟨t :: ts, below, a.pushSelector (.slice ⟨start.map (·.value), stop.map (·.value), 1⟩), k⟩ :=
      (leads_bound stop (.inr ht)).trans (leads_boundEnd stop (fun _ => rfl) ht)
    simpa [SliceText.tokens, SliceText.slice] using hstart.trans hstop
  | some last =>
    have hstop : Leads env
        ⟨SliceText.boundTokens stop ++ .char ':' :: (SliceText.boundTokens last ++ t :: ts),
          .integer (.stop (start.map (·.value))) :: below, a, k⟩
        ⟨SliceText.boundTokens last ++ t :: ts,
          .integer (.step (start.map (·.value)) (stop.map (·.value))) :: below, a, k⟩ :=
      (leads_bound stop endsBound_colon).trans (leads_secondColon _ stop)
    have hselector : ∀ m : Machine, m.boundSelector (last.map (·.value))
        (.step (start.map (·.value)) (stop.map (·.value))) =
          .ok (.slice ⟨start.map (·.value), stop.map (·.value), (last.map (·.value)).getD 1⟩) := by
      intro m
      have hne : last.map (·.value) ≠ some 0 := by
        cases last with
        | none => nofun
        | some i => simpa using hz i rfl
      simp [Machine.boundSelector, hne]
    have hlast := hstop.trans ((leads_bound last (.inr ht)).trans (leads_boundEnd last hselector ht))
    simpa [SliceText.tokens, SliceText.slice] using hstart.trans hlast

end integers

end PathQuery.Syntax
