import PathQuery.Proofs.Query.JsonLiterals

namespace PathQuery.Syntax

variable {env : Env} {below : List Mode} {a : Assembly} {k : Nat} {rest : List Char} {ts : List Token}

section numbers

variable {read cs : List Char} {c : Char}

/-- Whether all characters go on with a number of which some have been read, the last first. -/
def continuesAll (read : List Char) : List Char → Bool
  | [] => true
  | c :: cs => Machine.continuesNumber read c && continuesAll (c :: read) cs

theorem continuesAll_append (read xs ys : List Char) :
    continuesAll read (xs ++ ys) = (continuesAll read xs && continuesAll (xs.reverse ++ read) ys) := by
  induction xs generalizing read with
  | nil => rfl
  | cons x xs ih => simp [continuesAll, ih, Bool.and_assoc]

theorem continuesAll_digits (read : List Char) {ds : List Char} (h : ∀ c ∈ ds, c.isDigit = true) :
    continuesAll read ds = true := by
  induction ds generalizing read with
  | nil => rfl
  | cons d ds ih =>
    simp [continuesAll, Machine.continuesNumber, h d (by simp), ih _ fun c hc => h c (List.mem_cons_of_mem _ hc)]

theorem continuesAll_exponent (h : Exponent cs) (read : List Char) : continuesAll read cs = true := by
  cases h with
  | none => rfl
  | @mark e sign ds he hs hd =>
    -- behind the mark a sign goes on with the number
    have hsign : continuesAll (e :: read) sign = true := by
      rcases he with rfl | rfl <;> rcases hs with rfl | rfl | rfl <;> rfl
    have hmark : Machine.continuesNumber read e = true := by
      rcases he with rfl | rfl <;> simp [Machine.continuesNumber]
    rw [continuesAll, continuesAll_append, hsign, hmark, continuesAll_digits _ hd.2]
    rfl

/-- All characters of a number go on with it. -/
theorem continuesAll_unsigned (h : Unsigned cs) (read : List Char) : continuesAll read cs = true := by
  obtain ⟨hw, -, hf, he⟩ := h
  have hfraction : ∀ {fraction}, Fraction fraction → ∀ read, continuesAll read fraction = true := by
    rintro _ (_ | hd) read
    · rfl
    · rw [continuesAll, continuesAll_digits _ hd.2]
      rfl
  rw [continuesAll_append, continuesAll_append, continuesAll_digits _ hw.2, hfraction hf, continuesAll_exponent he]
  rfl

theorem Unsigned.isDigit_head (h : Unsigned (c :: cs)) : c.isDigit = true := by
  generalize hcs : c :: cs = text at h
  obtain @⟨whole, _, _, hw, -, -, -⟩ := h
  cases whole with
  | nil => exact absurd rfl hw.1
  | cons d whole =>
    obtain ⟨rfl, -⟩ := List.cons.inj hcs
    exact hw.2 c List.mem_cons_self

theorem comes_continuesAll (h : continuesAll read cs = true) :
    Comes env ⟨cs ++ rest, .number read :: below, a, k⟩ ⟨rest, .number (cs.reverse ++ read) :: below, a, k⟩ := by
  induction cs generalizing read with
  | nil => exact .refl _
  | cons c cs ih =>
    rw [continuesAll, Bool.and_eq_true] at h
    have hstep : Comes env ⟨c :: (cs ++ rest), .number read :: below, a, k⟩
        ⟨cs ++ rest, .number (c :: read) :: below, a, k⟩ := by
      refine .char fun position => ⟨position.after c, ?_⟩
      simp only [Machine.step, Machine.stepIn, Machine.readNumber, h.1, if_true]
      rfl
    rw [List.reverse_cons, List.append_assoc]
    exact hstep.trans (ih h.2)

theorem continuesNumber_of_isSpace {c : Char} (h : Text.isSpace c = true) (read : List Char) :
    Machine.continuesNumber read c = false := by
  have hd := isDigit_of_isSpace h
  have hne : ∀ d : Char, Text.isSpace d = false → c ≠ d := by
    intro d hd he
    rw [he, hd] at h
    cases h
  simp [Machine.continuesNumber, hd, hne '.' rfl, hne 'e' rfl, hne 'E' rfl, hne '+' rfl, hne '-' rfl]

theorem leads_number (n : NumberText env) (hs : Stops ts) :
    Leads env ⟨n.token :: ts, .operand :: below, a, k⟩ ⟨ts, below, a.push (.literal (.number n.value)), k⟩ := by
  refine .token rfl fun rest hf => ?_
  have hdigit : n.first.isDigit = true := n.unsigned.isDigit_head
  have hstart : Comes env ⟨n.token.text ++ rest, .operand :: below, a, k⟩
      ⟨(n.first :: n.others) ++ rest, .number [] :: below, a, k⟩ := by
    refine .char fun position => ⟨position, ?_⟩
    have hne := fun d => ne_of_isDigit (d := d) hdigit
    simp [Machine.step, Machine.stepIn, Machine.readOperand, isSpace_of_isDigit hdigit, hne '$' rfl, hne '@' rfl,
      hne '(' rfl, hne '\'' rfl, hne '"' rfl, hne '!' rfl, hne '-' rfl, hdigit, Machine.goto, NumberText.token]
  have hend : Comes env ⟨rest, .number (n.first :: n.others).reverse :: below, a, k⟩
      ⟨rest, below, a.push (.literal (.number n.value)), k⟩ := by
    have hstop : ∀ c ∈ rest.head?, ∀ read, Machine.continuesNumber read c = false :=
      hs.head hf (fun c hc read => continuesNumber_of_isSpace hc read)
        ⟨fun read => by simp [Machine.continuesNumber], fun read => by simp [Machine.continuesNumber],
          fun read => by simp [Machine.continuesNumber]⟩
    have hnumber : ∀ (text : List Char) position, Machine.endNumber
        ⟨text, position, .number (n.first :: n.others).reverse :: below, a, k⟩ env below (n.first :: n.others).reverse =
          .ok ⟨text, position, below, a.push (.literal (.number n.value)), k⟩ := by
      intro text position
      rw [Machine.endNumber, List.reverse_reverse, n.reads]
      rfl
    cases rest with
    | nil => exact .atEnd fun position => ⟨position, hnumber [] position⟩
    | cons c rest =>
      refine .char fun position => ⟨position, ?_⟩
      simp only [Machine.step, Machine.stepIn, Machine.readNumber, hstop c rfl]
      exact hnumber _ position
  have hall : Comes env ⟨(n.first :: n.others) ++ rest, .number [] :: below, a, k⟩
      ⟨rest, .number ((n.first :: n.others).reverse ++ []) :: below, a, k⟩ :=
    comes_continuesAll (continuesAll_unsigned n.unsigned [])
  rw [List.append_nil] at hall
  exact hstart.trans (hall.trans hend)

/-- The decimal digits of an integer, without a point or an exponent, are a number. -/
theorem unsigned_toDigits (n : Nat) : Unsigned (Nat.toDigits 10 n) := by
  have hzero : (Nat.toDigits 10 n).head? = some '0' → Nat.toDigits 10 n = ['0'] := by
    intro h
    rw [eq_zero_of_head?_toDigits n h]
    rfl
  have hunsigned := Unsigned.mk ⟨Nat.toDigits_ne_nil, fun c hc => isDigit_of_mem_toDigits hc⟩ hzero .none .none
  rwa [List.append_nil, List.append_nil] at hunsigned

theorem leads_digits (h : env.ReadsIntegers) {n : Nat} (hn : fitsUInt64 n = true) (hs : Stops ts) :
    Leads env ⟨digitsToken n :: ts, .operand :: below, a, k⟩ ⟨ts, below, a.push (.literal (.ofNat n)), k⟩ := by
  have hdigits : (digitsToken n).first :: (digitsToken n).others = Nat.toDigits 10 n := text_digitsToken n
  have hread : env.number? (String.ofList ((digitsToken n).first :: (digitsToken n).others)) = some (.int n) := by
    rw [hdigits, Readers.number?, h n hn]
    rfl
  exact leads_number ⟨_, _, hdigits ▸ unsigned_toDigits n, .int n, hread⟩ hs

end numbers

section keywords

def Keyword.name : Keyword → BareName
  | .true => ⟨'t', ['r', 'u', 'e'], plain_of_all (by decide)⟩
  | .false => ⟨'f', ['a', 'l', 's', 'e'], plain_of_all (by decide)⟩
  | .null => ⟨'n', ['u', 'l', 'l'], plain_of_all (by decide)⟩

theorem leads_keyword (w : Keyword) (hs : Stops ts) :
    Leads env ⟨w.token :: ts, .operand :: below, a, k⟩ ⟨ts, below, a.push (.literal w.value), k⟩ := by
  have hname : Leads env ⟨w.token :: ts, .operand :: below, a, k⟩ ⟨ts, .operandName w.name.value :: below, a, k⟩ := by
    have hn : w.token = w.name.token := by cases w <;> rfl
    rw [hn]
    exact leads_operandName w.name (by cases w <;> decide) hs.endsName
  refine hname.trans ?_
  have hend : ∀ text position, Machine.endOperandName ⟨text, position, .operandName w.name.value :: below, a, k⟩ below
      w.name.value = .ok ⟨text, position, below, a.push (.literal w.value), k⟩ := by
    intro text position
    cases w <;> rfl
  -- no parenthesis follows that would make the name that of a function
  have hkeep : ∀ t : Token, Text.isSpace t.first = false → t.first ≠ '(' → ∀ ts, Leads env
      ⟨t :: ts, .operandName w.name.value :: below, a, k⟩ ⟨t :: ts, below, a.push (.literal w.value), k⟩ := by
    intro t hspace hparen ts
    refine .keep rfl fun rest => .char fun position => ⟨position, ?_⟩
    simp only [Machine.step, Machine.stepIn, Machine.readOperandName, hspace, hparen]
    exact hend _ position
  cases hs with
  | nil =>
    intro blanks text hb ht
    cases ht
    have hstep : Comes env ⟨[], .operandName w.name.value :: below, a, k⟩
        ⟨[], below, a.push (.literal w.value), k⟩ := .atEnd fun position => ⟨position, hend [] position⟩
    exact ⟨[], [], blanks_nil, .nil, (comes_blanks rfl hb).trans hstep⟩
  | close hc ts =>
    rcases hc with rfl | rfl | rfl <;> exact hkeep _ rfl (by decide) ts
  | likes ts => exact hkeep _ rfl (by decide) ts
  | binary op ts =>
    refine hkeep _ ?_ ?_ ts
    · cases op <;> rfl
    · cases op <;> decide

end keywords

/-- A literal, if what follows cannot go on with it. -/
theorem leads_literal (l : Literal env) (hs : Stops ts) :
    Leads env ⟨l.token :: ts, .operand :: below, a, k⟩ ⟨ts, below, a.push (.literal l.value), k⟩ := by
  cases l with
  | text t =>
    refine .token rfl fun rest _ => ?_
    refine Comes.trans (.char fun position => ⟨position.after t.quote, ?_⟩) (comes_quoted (u := .literal) t)
    exact t.cases_quote (p := fun c => Machine.step ⟨c :: _, position, _, a, k⟩ env =
      .ok ⟨_, position.after c, .quoted c .literal [] :: below, a, k⟩) ⟨rfl, rfl⟩
  | integer h n hn => exact leads_digits h hn hs
  | number n => exact leads_number n hs
  | keyword w => exact leads_keyword w hs
  | json j => exact leads_json j

section patterns

variable {read : List Char}

theorem comes_patternBackslash :
    Comes env ⟨'\\' :: rest, .pattern read :: below, a, k⟩ ⟨rest, .patternEscape read :: below, a, k⟩ :=
  .char fun position => ⟨position.after '\\', rfl⟩

/-- What stands between the slashes is read as the expression that it stands for. -/
theorem comes_pattern {body expression : List Char} (h : SpellsPattern body expression) :
    Comes env ⟨body ++ rest, .pattern read :: below, a, k⟩
      ⟨rest, .pattern (expression.reverse ++ read) :: below, a, k⟩ := by
  induction h generalizing read with
  | nil => exact .refl _
  | @char c body expression hs hb _ ih =>
    have hstep : Comes env ⟨c :: (body ++ rest), .pattern read :: below, a, k⟩
        ⟨body ++ rest, .pattern (c :: read) :: below, a, k⟩ := by
      refine .char fun position => ⟨position.after c, ?_⟩
      simp [Machine.step, Machine.stepIn, Machine.readPattern, hs, hb, Machine.past, Machine.goto]
    rw [List.reverse_cons, List.append_assoc]
    exact hstep.trans ih
  | @slash body expression _ ih =>
    have hslash : Comes env ⟨'/' :: (body ++ rest), .patternEscape read :: below, a, k⟩
        ⟨body ++ rest, .pattern ('/' :: read) :: below, a, k⟩ := .char fun position => ⟨position.after '/', rfl⟩
    rw [List.reverse_cons, List.append_assoc]
    exact comes_patternBackslash.trans (hslash.trans ih)
  | @escape c body expression hs _ ih =>
    have hescape : Comes env ⟨c :: (body ++ rest), .patternEscape read :: below, a, k⟩
        ⟨body ++ rest, .pattern (c :: '\\' :: read) :: below, a, k⟩ := by
      refine .char fun position => ⟨position.after c, ?_⟩
      simp [Machine.step, Machine.stepIn, Machine.readPatternEscape, hs, Machine.past, Machine.goto]
    rw [List.reverse_cons, List.append_assoc, List.reverse_cons, List.append_assoc]
    exact comes_patternBackslash.trans (hescape.trans ih)

theorem endPattern_expression (r : PatternText env) (text : List Char) (position : Text.Position) (modes : List Mode) :
    Machine.endPattern ⟨text, position, modes, a, k⟩ env below r.expression.reverse r.fold =
      .ok ⟨text, position, below, a.pushOperator (.unary (.likes r.pattern)), k⟩ := by
  rw [Machine.endPattern, List.reverse_reverse, r.reads]
  rfl

/-- A regular expression with its flag. -/
theorem comes_patternEnd (r : PatternText env) (hi : ∀ c ∈ rest.head?, c ≠ 'i') :
    Comes env ⟨(if r.fold then ['i'] else []) ++ rest, .patternEnd r.expression.reverse :: below, a, k⟩
      ⟨rest, below, a.pushOperator (.unary (.likes r.pattern)), k⟩ := by
  have hend : ∀ text position modes,
      Machine.endPattern ⟨text, position, modes, a, k⟩ env below r.expression.reverse r.fold =
        .ok ⟨text, position, below, a.pushOperator (.unary (.likes r.pattern)), k⟩ := endPattern_expression r
  cases hf : r.fold with
  | true =>
    rw [hf] at hend
    exact .char fun position => ⟨position.after 'i', hend _ _ _⟩
  | false =>
    rw [hf] at hend
    cases rest with
    | nil => exact .atEnd fun position => ⟨position, hend _ _ _⟩
    | cons c rest =>
      refine .char fun position => ⟨position, ?_⟩
      simp only [Machine.step, Machine.stepIn, Machine.readPatternEnd, hi c rfl]
      exact hend _ _ _

/-- A regular expression before a text that does not begin with the flag. -/
theorem comes_patternText (r : PatternText env) (hi : ∀ c ∈ rest.head?, c ≠ 'i') :
    Comes env ⟨r.token.text ++ rest, .patternStart :: below, a, k⟩
      ⟨rest, below, a.pushOperator (.unary (.likes r.pattern)), k⟩ := by
  have hstart : Comes env ⟨r.token.text ++ rest, .patternStart :: below, a, k⟩
      ⟨r.token.others ++ rest, .pattern [] :: below, a, k⟩ := .char fun position => ⟨position.after '/', rfl⟩
  have hbody : Comes env ⟨r.token.others ++ rest, .pattern [] :: below, a, k⟩
      ⟨'/' :: ((if r.fold then ['i'] else []) ++ rest), .pattern r.expression.reverse :: below, a, k⟩ := by
    have hspelled := @comes_pattern env below a k ('/' :: ((if r.fold then ['i'] else []) ++ rest)) [] _ _ r.spells
    rw [List.append_nil] at hspelled
    simpa [PatternText.token] using hspelled
  have hslash : Comes env
      ⟨'/' :: ((if r.fold then ['i'] else []) ++ rest), .pattern r.expression.reverse :: below, a, k⟩
      ⟨(if r.fold then ['i'] else []) ++ rest, .patternEnd r.expression.reverse :: below, a, k⟩ :=
    .char fun position => ⟨position.after '/', rfl⟩
  exact hstart.trans (hbody.trans (hslash.trans (comes_patternEnd r hi)))

theorem leads_pattern (r : PatternText env) (hs : Stops ts) :
    Leads env ⟨r.token :: ts, .patternStart :: below, a, k⟩
      ⟨ts, below, a.pushOperator (.unary (.likes r.pattern)), k⟩ := by
  refine .token rfl fun rest hf => comes_patternText r (hs.head hf ?_ (by decide))
  rintro c hc rfl
  cases hc

end patterns

end PathQuery.Syntax
