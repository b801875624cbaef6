import PathQuery.Proofs.Query.Literals
import PathQuery.Proofs.Query.Stances

namespace PathQuery

open Role (frames)

open Mode (lexingOf Stacked)

namespace Machine

variable {m n : Machine} {env : Env} {below modes : List Mode} {c : Char} {rest : List Char} {σ : Lexing}

section names

variable {use : BareUse} {read : List Char} {name : String}

/-- Where an operand is due a name starts with what can start one. -/
theorem first_of_isNameStart (h : isNameStart c = true) (bs : List Bracket) :
    Lexing.first bs c .operand = ⟨.name, .suffix, bs⟩ := by
  have hd := Syntax.isDelimiter_of_isNameStart h
  have hdash : c ≠ '-' := by
    rintro rfl
    revert h
    decide
  have hne := fun {d : Char} => Syntax.ne_of_isDelimiter (d := d) hd
  simp [Lexing.first, Syntax.isDigit_of_isNameStart h, hdash, hne (d := '$') (by decide), hne (d := '@') (by decide),
    hne (d := '(') (by decide), hne (d := ')') (by decide), hne (d := '\'') (by decide), hne (d := '"') (by decide),
    hne (d := '!') (by decide), hne (d := '[') (by decide), hne (d := '\x7b') (by decide)]

theorem lexingAt_bareName (use : BareUse) (read : List Char) (pending : List Pending) :
    lexingAt (.bareName use read :: below) pending =
      ⟨.name, .suffix, Frame.brackets (frames (Mode.roles below)) pending⟩ := by
  cases use <;> rfl

theorem readStart_lexes (hm : m.modes = .start :: below) (hs : Stacked (.start :: below)) (hr : m.rest = c :: rest) :
    Lexes (lexingAt (.start :: below) m.assembly.pending) c rest (m.readStart below (c :: rest)) := by
  rw [readStart]
  refine lexes_ite (lexes_blank hm hs fun _ => rfl) fun hspace => ?_
  refine lexes_ite (fun h => ?_) fun _ => ?_
  · subst h
    exact lexes_past hs rfl (lexing_of_pending (Assembly.pushSelector_pending _ _))
  refine lexes_ite (fun h => ?_) fun _ => lexes_fail _
  refine lexes_kept hs hr (Lexing.ended_token _ (by decide) ?_ fun h => (Lexing.continues_sign h).1)
  exact (Lexing.read_name _ (Syntax.isDelimiter_of_isNameStart h)).trans
    ((Lexing.read_first _ hspace _).trans (first_of_isNameStart h _)).symm

theorem readBareName_lexes (env : Env) (hs : Stacked (.bareName use read :: below)) (hr : m.rest = c :: rest) :
    Lexes (lexingAt (.bareName use read :: below) m.assembly.pending) c rest
      (m.readBareName below use read (c :: rest)) := by
  rw [readBareName]
  refine lexes_ite (fun h => ?_) fun h => ?_
  · refine lexes_endToken env hs hr ?_
    rw [lexingAt_bareName]
    exact congrArg (!·) h
  refine lexes_past hs rfl ?_
  rw [lexingAt_bareName, Lexing.read_name _ (by simpa using h)]
  exact lexingAt_bareName use (c :: read) _

theorem openCall_lexes (hs : Stacked modes) (hl : lexingAt modes (.scope :: m.assembly.pending) = σ.read c) :
    Lexes σ c rest ((m.openCall env name c rest).map (·.goto modes)) := by
  unfold openCall
  cases Function.find? name env.functions with
  | none => exact lexes_fail _
  | some f => exact lexes_past hs rfl hl

theorem readQueryCall_lexes (hm : m.modes = .queryCall name :: below) (hs : Stacked (.queryCall name :: below)) :
    Lexes (lexingAt (.queryCall name :: below) m.assembly.pending) c rest
      (m.readQueryCall env below name (c :: rest)) := by
  rw [readQueryCall]
  refine lexes_ite (lexes_blank hm hs fun _ => rfl) fun _ => ?_
  refine lexes_ite (fun h => ?_) fun _ => lexes_fail _
  subst h
  exact openCall_lexes ⟨trivial, fun _ => rfl, trivial, fun _ => rfl, hs⟩ rfl

end names

section paths

variable {read : List Char} {bound : Bound} {quote : Char} {use : QuotedUse}

theorem readPath_lexes (hm : m.modes = .path :: below) (hs : Stacked (.path :: below)) (hr : m.rest = c :: rest) :
    Lexes (lexingAt (.path :: below) m.assembly.pending) c rest (m.readPath below (c :: rest)) := by
  obtain ⟨-, hbelow, hstack⟩ := id hs
  rw [readPath]
  refine lexes_ite (lexes_blank hm hs fun _ => rfl) fun _ => ?_
  refine lexes_ite (fun h => ?_) fun _ => ?_
  · subst h
    exact lexes_past ⟨trivial, fun _ => rfl, hs⟩ rfl rfl
  refine lexes_ite (fun h => ?_) fun _ => ?_
  · subst h
    exact lexes_past ⟨trivial, fun _ => rfl, trivial, fun _ => rfl, hs⟩ rfl rfl
  refine lexes_ite (fun _ => ?_) fun _ => lexes_fail _
  exact lexes_rested hstack hr (hbelow _) rfl

theorem readDot_lexes (env : Env) (hs : Stacked (.dot :: below)) (hr : m.rest = c :: rest) :
    Lexes (lexingAt (.dot :: below) m.assembly.pending) c rest (m.readDot below (c :: rest)) := by
  rw [readDot]
  refine lexes_ite (fun h => ?_) fun h => ?_
  · subst h
    exact lexes_past hs rfl (lexing_emitSelector _ _ _)
  · exact lexes_endToken env hs hr (decide_eq_false h)

theorem readDescent_lexes (hs : Stacked (.descent :: below)) (hr : m.rest = c :: rest) :
    Lexes (lexingAt (.descent :: below) m.assembly.pending) c rest (m.readDescent below (c :: rest)) := by
  rw [readDescent]
  refine lexes_ite (fun h => ?_) fun h => lexes_kept hs hr (Lexing.ended_refl rfl)
  subst h
  exact lexes_past ⟨trivial, fun _ => rfl, hs⟩ rfl rfl

theorem readDotName_lexes (hm : m.modes = .dotName :: below) (hs : Stacked (.dotName :: below))
    (hr : m.rest = c :: rest) :
    Lexes (lexingAt (.dotName :: below) m.assembly.pending) c rest (m.readDotName below (c :: rest)) := by
  obtain ⟨-, hbelow, hstack⟩ := id hs
  rw [readDotName]
  refine lexes_ite (lexes_blank hm hs fun _ => rfl) fun hspace => ?_
  refine lexes_ite (fun h => ?_) fun hstar => ?_
  · subst h
    exact lexes_past hstack rfl ((lexing_emitSelector _ _ _).trans (hbelow _))
  refine lexes_ite (fun h => ?_) fun hquote => ?_
  · have hq : c = '\'' ∨ c = '"' := by simpa using h
    refine lexes_past ⟨hq, hs.2⟩ rfl ?_
    rcases hq with rfl | rfl <;> rfl
  refine lexes_ite (fun _ => lexes_fail _) fun hd => ?_
  have hd : isDelimiter c = false := by simpa using hd
  refine lexes_kept ⟨trivial, hs.2⟩ hr (Lexing.ended_token _ (by decide) ?_ fun h => (Lexing.continues_sign h).1)
  refine (Lexing.read_name _ hd).trans ((Lexing.read_first _ hspace _).trans ?_).symm
  have hbracket : c ≠ '[' := Syntax.ne_of_isDelimiter hd (by decide)
  simp only [Lexing.first, if_neg hbracket, if_neg hstar, if_neg hquote]
  rfl

theorem lexingAt_quoted (quote : Char) (use : QuotedUse) (read : List Char) (pending : List Pending) :
    lexingAt (.quoted quote use read :: below) pending =
      ⟨.quoted quote, .suffix, Frame.brackets (frames (Mode.roles below)) pending⟩ := by
  cases use <;> rfl

theorem lexingAt_escape (quote : Char) (use : QuotedUse) (read : List Char) (e : Text.Escape)
    (pending : List Pending) :
    lexingAt (.escape quote use read e :: below) pending =
      (Mode.escape quote use read e).lexing (Frame.brackets (frames (Mode.roles below)) pending) := by
  cases use <;> rfl

theorem readQuoted_lexes (hs : Stacked (.quoted quote use read :: below)) :
    Lexes (lexingAt (.quoted quote use read :: below) m.assembly.pending) c rest
      (m.readQuoted below quote use read (c :: rest)) := by
  obtain ⟨-, hbelow, hstack⟩ := id hs
  rw [lexingAt_quoted, readQuoted]
  refine lexes_ite (fun h => ?_) fun hquote => ?_
  · have hread : ∀ bs, ⟨.none, .suffix, bs⟩ = Lexing.read ⟨.quoted quote, .suffix, bs⟩ c := by
      intro bs
      rw [Lexing.read_quoted, if_pos h]
    cases use with
    | member => exact lexes_past hstack rfl ((lexing_emitSelector _ _ _).trans ((hbelow _).trans (hread _)))
    | literal => exact lexes_past hstack rfl ((hbelow _).trans (hread _))
  refine lexes_ite (fun h => ?_) fun hbackslash => ?_
  · refine lexes_past hs rfl ?_
    rw [Lexing.read_quoted, if_neg hquote, if_pos h]
    exact lexingAt_escape quote use read .backslash _
  · refine lexes_past hs rfl ?_
    rw [Lexing.read_quoted, if_neg hquote, if_neg hbackslash]
    exact lexingAt_quoted quote use (c :: read) _

/-- A hexadecimal digit ends no text in quotes and starts no escape. -/
theorem read_hexDigit {d : Nat} (h : Text.hexValue? c = some d) (hq : quote = '\'' ∨ quote = '"') (bs : List Bracket) :
    Lexing.read ⟨.quoted quote, .suffix, bs⟩ c = ⟨.quoted quote, .suffix, bs⟩ := by
  have hne : ∀ d : Char, Text.hexValue? d = none → c ≠ d := by
    rintro _ hd rfl
    rw [h] at hd
    cases hd
  have hquote : c ≠ quote := by rcases hq with rfl | rfl <;> exact hne _ rfl
  rw [Lexing.read_quoted, if_neg hquote, if_neg (hne '\\' rfl)]

/-- An escape goes on with a character, or is complete with it. -/
theorem read_of_next (use : QuotedUse) (read : List Char) (e : Text.Escape) (hq : quote = '\'' ∨ quote = '"')
    (bs : List Bracket) :
    (∀ e', e.next Text.nameEscape? c = .more e' →
      (Mode.escape quote use read e').lexing bs = ((Mode.escape quote use read e).lexing bs).read c) ∧
    ∀ d, e.next Text.nameEscape? c = .char d →
      ⟨.quoted quote, .suffix, bs⟩ = ((Mode.escape quote use read e).lexing bs).read c := by
  cases e with
  | backslash =>
    refine ⟨fun e' h => ?_, fun d h => rfl⟩
    simp only [Text.Escape.next] at h
    split at h
    · cases h
      rfl
    · split at h <;> cases h
  | unit digits code =>
    simp only [Text.Escape.next]
    cases hd : Text.hexValue? c with
    | none => simp
    | some d =>
      refine ⟨fun e' h => ?_, fun d h => (read_hexDigit hd hq bs).symm⟩
      dsimp only at h
      split at h
      · cases h
        exact (read_hexDigit hd hq bs).symm
      · split at h
        · cases h
          exact (read_hexDigit hd hq bs).symm
        · split at h <;> cases h
  | pair high =>
    simp only [Text.Escape.next]
    split
    · next h =>
      refine ⟨fun e' he => ?_, by simp⟩
      cases he
      subst h
      have hback : ¬ '\\' = quote := by rcases hq with rfl | rfl <;> decide
      exact ((Lexing.read_quoted bs quote).trans (by rw [if_neg hback, if_pos rfl]; rfl)).symm
    · simp
  | pairBackslash high =>
    simp only [Text.Escape.next]
    split
    · refine ⟨fun e' he => ?_, by simp⟩
      cases he
      rfl
    · simp
  | pairUnit high digits code =>
    simp only [Text.Escape.next]
    cases hd : Text.hexValue? c with
    | none => simp
    | some d =>
      refine ⟨fun e' h => ?_, fun d h => (read_hexDigit hd hq bs).symm⟩
      dsimp only at h
      split at h
      · cases h
        exact (read_hexDigit hd hq bs).symm
      · split at h <;> cases h

theorem readEscape_lexes {e : Text.Escape} (hs : Stacked (.escape quote use read e :: below)) :
    Lexes (lexingAt (.escape quote use read e :: below) m.assembly.pending) c rest
      (m.readEscape below quote use read e (c :: rest)) := by
  have hnext := fun bs => read_of_next (c := c) use read e hs.1 bs
  rw [lexingAt_escape]
  simp only [readEscape]
  cases he : e.next Text.nameEscape? c with
  | more e' => exact lexes_past hs rfl ((lexingAt_escape quote use read e' _).trans ((hnext _).1 e' he))
  | char d => exact lexes_past hs rfl ((lexingAt_quoted quote use (d :: read) _).trans ((hnext _).2 d he))
  | unknown => exact lexes_fail _
  | stray => exact lexes_fail _
  | lone =>
    cases e with
    | unit _ _ => exact lexes_fail _
    | _ => exact lexes_fail _

end paths

section lists

variable {read : List Char} {bound : Bound}

theorem readElement_lexes (hm : m.modes = .element :: below) (hs : Stacked (.element :: below))
    (hr : m.rest = c :: rest) :
    Lexes (lexingAt (.element :: below) m.assembly.pending) c rest (m.readElement below (c :: rest)) := by
  rw [readElement]
  refine lexes_ite (lexes_blank hm hs fun _ => rfl) fun hspace => ?_
  have hfirst := Lexing.read_first (Frame.brackets (frames (Mode.roles below)) m.assembly.pending) hspace .element
  refine lexes_ite (fun h => ?_) fun hstar => ?_
  · subst h
    exact lexes_past hs rfl (lexing_emitSelector _ _ _)
  refine lexes_ite (fun h => ?_) fun hquote => ?_
  · have hq : c = '\'' ∨ c = '"' := by simpa using h
    refine lexes_past ⟨hq, fun _ => rfl, hs⟩ rfl ?_
    rcases hq with rfl | rfl <;> rfl
  refine lexes_ite (fun h => ?_) fun hinteger => ?_
  · refine lexes_kept hs hr (Lexing.ended_token _ (by decide) ?_ fun _ => rfl)
    refine (Lexing.read_first _ hspace _).trans (Eq.trans ?_ hfirst.symm)
    simp only [Lexing.first, if_pos h]
    rfl
  refine lexes_ite (fun h => ?_) fun hcolon => ?_
  · subst h
    exact lexes_kept hs hr (Lexing.ended_token _ (by decide) rfl fun _ => rfl)
  refine lexes_ite (fun h => ?_) fun hfilter => ?_
  · subst h
    exact lexes_past ⟨trivial, fun _ => rfl, trivial, fun _ => rfl, hs⟩ rfl rfl
  -- the parenthesis of a computed key is left to its operand
  refine lexes_ite (fun h => ?_) fun hcomputed => ?_
  · subst h
    exact lexes_kept ⟨trivial, fun _ => rfl, trivial, fun _ => rfl, hs⟩ hr
      (Lexing.ended_token _ (by decide) rfl fun _ => rfl)
  refine lexes_ite (fun h => ?_) fun hroot => ?_
  · subst h
    exact lexes_past hs rfl (lexing_of_pending (Assembly.pushSelector_pending _ _))
  refine lexes_ite (fun h => ?_) fun hcurrent => ?_
  · subst h
    exact lexes_past hs rfl (lexing_of_pending (Assembly.pushSelector_pending _ _))
  refine lexes_ite (fun _ => lexes_fail _) fun hd => ?_
  have hd : isDelimiter c = false := by simpa using hd
  refine lexes_kept ⟨trivial, fun _ => rfl, hs⟩ hr
    (Lexing.ended_token _ (by decide) ?_ fun h => (Lexing.continues_sign h).1)
  refine (Lexing.read_name _ hd).trans (Eq.trans ?_ hfirst.symm)
  have hstarting : ¬(c = '*' || c = '$' || c = '@') = true := by simp [hstar, hroot, hcurrent]
  simp only [Lexing.first, if_neg hinteger, if_neg hstarting, if_neg hquote, if_neg hcolon, if_neg hfilter,
    if_neg hcomputed]
  rfl

theorem readElementEnd_lexes (hm : m.modes = .elementEnd :: below) (hs : Stacked (.elementEnd :: below)) :
    Lexes (lexingAt (.elementEnd :: below) m.assembly.pending) c rest (m.readElementEnd below (c :: rest)) := by
  obtain ⟨-, hbelow, hstack⟩ := id hs
  rw [readElementEnd]
  refine lexes_ite (lexes_blank hm hs fun _ => rfl) fun _ => ?_
  refine lexes_ite (fun h => ?_) fun _ => ?_
  · subst h
    exact lexes_past ⟨trivial, fun _ => rfl, hs⟩ rfl rfl
  refine lexes_ite (fun h => ?_) fun _ => lexes_fail _
  subst h
  refine lexes_attempt fun a ha => lexes_past hstack rfl ?_
  exact (lexing_of_pending (Assembly.pending_of_closeUnion ha)).trans (hbelow _)

theorem readInteger_lexes (hm : m.modes = .integer bound :: below) (hs : Stacked (.integer bound :: below))
    (hr : m.rest = c :: rest) :
    Lexes (lexingAt (.integer bound :: below) m.assembly.pending) c rest (m.readInteger below bound (c :: rest)) := by
  rw [readInteger]
  refine lexes_ite (lexes_blank hm hs fun _ => rfl) fun hspace => ?_
  refine lexes_ite (fun h => ?_) fun hdash =>
    lexes_kept hs hr (Lexing.ended_token _ (by decide) ?_ fun h => (Lexing.continues_sign h).2.1)
  · subst h
    exact lexes_past hs rfl rfl
  · refine Eq.trans ?_ (Lexing.read_first _ hspace _).symm
    cases hd : c.isDigit with
    | true => exact (Lexing.read_integer _ hd).trans (if_pos (by simp [hd])).symm
    | false =>
      refine (Lexing.read_rested (σ := lexingAt (.digits bound [] :: below) _) hd).symm.trans ?_
      exact (Lexing.read_first _ hspace _).trans (if_neg (by simp [hd, hdash])).symm

theorem readDigits_lexes (env : Env) (hs : Stacked (.digits bound read :: below)) (hr : m.rest = c :: rest) :
    Lexes (lexingAt (.digits bound read :: below) m.assembly.pending) c rest
      (m.readDigits below bound read (c :: rest)) := by
  rw [readDigits]
  refine lexes_ite (fun h => ?_) fun h => ?_
  · exact lexes_past hs rfl (Lexing.read_integer _ h).symm
  · exact lexes_endToken env hs hr (Bool.eq_false_iff.2 h)

theorem readBoundEnd_lexes (hm : m.modes = .boundEnd bound read :: below) (hs : Stacked (.boundEnd bound read :: below))
    (hr : m.rest = c :: rest) :
    Lexes (lexingAt (.boundEnd bound read :: below) m.assembly.pending) c rest
      (m.readBoundEnd below bound read (c :: rest)) := by
  obtain ⟨-, hbelow, hstack⟩ := id hs
  simp only [readBoundEnd]
  refine lexes_ite (lexes_blank hm hs fun _ => rfl) fun _ => ?_
  obtain ⟨i, hi⟩ | hi := readBound_cases read
  · simp only [hi, Except.bind, Except.map]
    refine lexes_ite (fun _ => ?_) fun _ => lexes_ite (fun h => ?_) fun _ => lexes_fail _
    · obtain ⟨s, -, he⟩ | ⟨fault, -, he⟩ := boundSelector_cases i bound
      · rw [he]
        exact lexes_rested hstack hr ((lexing_emitSelector _ _ _).trans (hbelow _)) rfl
      · rw [he]
        exact lexes_fail _
    · subst h
      cases bound with
      | first => exact lexes_past hs rfl rfl
      | stop start => exact lexes_past hs rfl rfl
      | step start stop => exact lexes_fail _
  · simp only [hi]
    refine lexes_ite (fun _ => lexes_fail _) fun _ => lexes_ite (fun _ => ?_) fun _ => lexes_fail _
    cases bound <;> exact lexes_fail _

end lists

section expressions

variable {read : List Char} {name : String} {depth : Nat} {use : QuotedUse}

theorem readExpressionEnd_lexes {mode : Mode} {close : Assembly → Except SyntaxFault Assembly}
    (hm : m.modes = mode :: below) (hs : Stacked (mode :: below)) (hr : m.rest = c :: rest)
    (hl : ∀ bs, mode.lexing bs = ⟨.none, .suffix, bs⟩) (hleaves : mode.leaves = .suffix)
    (hclose : ∀ a, close m.assembly = .ok a → Frame.brackets (frames (Mode.roles below)) a.pending =
      Frame.brackets (frames (Mode.roles (mode :: below))) m.assembly.pending) :
    Lexes (lexingAt (mode :: below) m.assembly.pending) c rest (m.readExpressionEnd below close (c :: rest)) := by
  obtain ⟨-, hbelow, hstack⟩ := id hs
  rw [readExpressionEnd]
  refine lexes_ite (lexes_blank hm hs fun bs => by rw [hl]) fun _ => ?_
  refine lexes_ite (fun _ => ?_) fun _ => lexes_fail _
  refine lexes_attempt fun a ha => lexes_kept hstack hr ?_
  have hsame : lexingAt below a.pending = lexingAt (mode :: below) m.assembly.pending := by
    rw [lexingAt, hclose a ha, hbelow, hleaves]
    exact (hl _).symm
  have hends : (lexingAt (mode :: below) m.assembly.pending).token.continues c = false := by
    rw [lexingAt, Mode.lexingOf, hl]
    rfl
  exact hsame ▸ Lexing.ended_refl (hsame ▸ hends)

theorem read_number (read : List Char) (h : continuesNumber read c = true) (bs : List Bracket) :
    Lexing.read ⟨.number (read.head? = some 'e' || read.head? = some 'E'), .suffix, bs⟩ c =
      ⟨.number (c = 'e' || c = 'E'), .suffix, bs⟩ :=
  Lexing.read_more (σ := ⟨.number (read.head? = some 'e' || read.head? = some 'E'), .suffix, bs⟩) h

theorem readOperand_lexes (hm : m.modes = .operand :: below) (hs : Stacked (.operand :: below))
    (hf : Role.Fits .operand (frames (Mode.roles (.operand :: below)))) (hr : m.rest = c :: rest) :
    Lexes (lexingAt (.operand :: below) m.assembly.pending) c rest (m.readOperand below (c :: rest)) := by
  obtain ⟨-, hbelow, hstack⟩ := id hs
  rw [readOperand]
  refine lexes_ite (lexes_blank hm hs fun _ => rfl) fun hspace => ?_
  have hfirst := Lexing.read_first (Frame.brackets (frames (Mode.roles below)) m.assembly.pending) hspace .operand
  refine lexes_ite (fun h => ?_) fun _ => ?_
  · subst h
    exact lexes_past hstack rfl ((lexing_of_pending (Assembly.pushSelector_pending _ _)).trans (hbelow _))
  refine lexes_ite (fun h => ?_) fun _ => ?_
  · subst h
    exact lexes_past hstack rfl ((lexing_of_pending (Assembly.pushSelector_pending _ _)).trans (hbelow _))
  refine lexes_ite (fun h => ?_) fun _ => ?_
  · subst h
    refine lexes_past (hm ▸ hs) rfl ?_
    have hl : ((m.past '(' rest).emit (·.openGroup)).lexing =
        lexingAt (.operand :: below) (.group :: m.assembly.pending) := by rw [← hm]; rfl
    exact hl.trans (congrArg (Lexing.mk .none .operand) (Frame.brackets_group _ _ hf))
  refine lexes_ite (fun h => ?_) fun hquote => ?_
  · have hq : c = '\'' ∨ c = '"' := by simpa using h
    refine lexes_past ⟨hq, hs.2⟩ rfl ?_
    rcases hq with rfl | rfl <;> rfl
  have hemitted : ∀ op, ((m.past c rest).emitOperator op).lexing = lexingAt (.operand :: below) m.assembly.pending := by
    intro op
    show lexingAt m.modes (m.assembly.pushOperator op).pending = _
    rw [hm, lexingAt_pushOperator]
  refine lexes_ite (fun h => ?_) fun _ => ?_
  · subst h
    exact lexes_past (hm ▸ hs) rfl (hemitted _)
  refine lexes_ite (fun h => ?_) fun _ => ?_
  · subst h
    exact lexes_past (hm ▸ hs) rfl (hemitted _)
  refine lexes_ite (fun h => ?_) fun _ => ?_
  · have hcontinues : continuesNumber [] c = true := by simp [continuesNumber, h]
    refine lexes_kept ⟨trivial, hs.2⟩ hr (Lexing.ended_token _ (by decide) ?_ fun h => (Lexing.continues_sign h).2.2 _)
    refine (read_number [] hcontinues _).trans (Eq.trans ?_ hfirst.symm)
    have hmark : (c = 'e' || c = 'E') = false := by
      simp [Syntax.ne_of_isDigit h (d := 'e') rfl, Syntax.ne_of_isDigit h (d := 'E') rfl]
    rw [hmark]
    exact (if_pos h).symm
  refine lexes_ite (fun h => ?_) fun _ => ?_
  · have hc : c = '[' ∨ c = '\x7b' := by simpa using h
    refine lexes_kept ⟨trivial, hs.2⟩ hr (Lexing.ended_token _ (by decide) ?_ ?_)
    · rcases hc with rfl | rfl <;> rfl
    · rcases hc with rfl | rfl <;> exact fun hsign => absurd hsign (by decide)
  refine lexes_ite (fun h => ?_) fun _ => lexes_fail _
  refine lexes_kept ⟨trivial, hs.2⟩ hr (Lexing.ended_token _ (by decide) ?_ fun h => (Lexing.continues_sign h).1)
  exact (Lexing.read_name _ (Syntax.isDelimiter_of_isNameStart h)).trans
    (hfirst.trans (first_of_isNameStart h _)).symm

theorem whole_lexes {op : BinaryOp} (h : operatorStart? c = some (.whole op)) (pending : List Pending) :
    lexingAt (.operand :: .operator :: below) pending = (lexingAt (.operator :: below) pending).read c := by
  unfold operatorStart? at h
  split at h <;> cases h <;> rfl

theorem half_lexes (h : operatorStart? c = some (.half modes)) (hs : Stacked (.operator :: below))
    (pending : List Pending) : Stacked (modes ++ .operator :: below) ∧
      lexingAt (modes ++ .operator :: below) pending = (lexingAt (.operator :: below) pending).read c := by
  have hone : ∀ mode : Mode, mode.QuotesWell → mode.leaves = .suffix → Stacked (mode :: .operator :: below) :=
    fun mode hq hl => ⟨hq, fun _ => hl ▸ rfl, hs⟩
  have htwo : ∀ mode : Mode, mode.QuotesWell → mode.leaves = .operand →
      Stacked (mode :: .operand :: .operator :: below) :=
    fun mode hq hl => ⟨hq, fun _ => hl ▸ rfl, hone .operand trivial rfl⟩
  unfold operatorStart? at h
  split at h <;> cases h
  · exact ⟨htwo .or trivial rfl, rfl⟩
  · exact ⟨htwo .and trivial rfl, rfl⟩
  all_goals exact ⟨hone _ trivial rfl, rfl⟩

theorem readOperator_lexes (hm : m.modes = .operator :: below) (hs : Stacked (.operator :: below))
    (hf : Role.Fits .operator (frames (Mode.roles (.operator :: below)))) (hr : m.rest = c :: rest) :
    Lexes (lexingAt (.operator :: below) m.assembly.pending) c rest (m.readOperator below (c :: rest)) := by
  obtain ⟨-, hbelow, hstack⟩ := id hs
  rw [readOperator]
  refine lexes_ite (lexes_blank hm hs fun _ => rfl) fun hspace => ?_
  refine lexes_ite (fun h => ?_) fun _ => ?_
  · subst h
    exact lexes_past ⟨trivial, fun _ => rfl, hs⟩ rfl rfl
  refine lexes_ite (fun h => ?_) fun _ => ?_
  · subst h
    exact lexes_past ⟨trivial, fun _ => rfl, trivial, fun _ => rfl, hs⟩ rfl rfl
  -- a parenthesis closes a group, or is left to the call whose argument it ends
  refine lexes_ite (fun h => lexes_ite (fun _ => ?_) fun _ => lexes_ite (fun _ => ?_) fun _ => lexes_fail _) fun _ => ?_
  · subst h
    unfold attempt
    split
    · next a ha =>
      refine lexes_past (hm ▸ hs) rfl ?_
      have hl : Machine.lexing { m.past ')' rest with assembly := a } = lexingAt (.operator :: below) a.pending := by
        rw [← hm]
        rfl
      have hclose := Assembly.brackets_closeGroup hf ha
      exact hl.trans (congrArg (fun bs : List Bracket => (⟨.none, .suffix, bs.tail⟩ : Lexing)) hclose).symm
    · exact lexes_fail _
  · exact lexes_rested hstack hr (hbelow _) rfl
  refine lexes_ite (fun _ => lexes_rested hstack hr (hbelow _) rfl) fun _ => ?_
  split
  · next op ho =>
    refine lexes_past ⟨trivial, fun _ => rfl, hs⟩ rfl ((lexing_emitBinary _ _ _).trans ?_)
    exact whole_lexes ho _
  · next modes ho =>
    obtain ⟨hstack, hl⟩ := half_lexes ho hs m.assembly.pending
    exact lexes_past hstack rfl hl
  · exact lexes_fail _

theorem readNumber_lexes (hs : Stacked (.number read :: below)) (hr : m.rest = c :: rest) :
    Lexes (lexingAt (.number read :: below) m.assembly.pending) c rest (m.readNumber env below read (c :: rest)) := by
  rw [readNumber]
  refine lexes_ite (fun h => ?_) fun h => lexes_endToken env hs hr (Bool.eq_false_iff.2 h)
  have hmark : ((c :: read).head? = some 'e' || (c :: read).head? = some 'E') = (c = 'e' || c = 'E') := by simp
  refine lexes_past hs rfl ((read_number read h _).trans ?_).symm
  exact congrArg (fun mark => (⟨.number mark, .suffix, _⟩ : Lexing)) hmark.symm

theorem readJson_lexes (hs : Stacked (.json depth read :: below)) :
    Lexes (lexingAt (.json depth read :: below) m.assembly.pending) c rest
      (m.readJson env below depth read (c :: rest)) := by
  obtain ⟨-, hbelow, hstack⟩ := id hs
  have hread := fun bs => Lexing.read_json (c := c) bs depth
  rw [readJson]
  refine lexes_ite (fun h => ?_) fun hopen => ?_
  · refine lexes_past hs rfl ((hread _).trans ?_).symm
    rw [if_pos h]
    rfl
  refine lexes_ite (fun hclose => lexes_ite (fun hdepth => ?_) fun hdepth => ?_) fun hclose => ?_
  · unfold endJson
    split
    · refine lexes_past hstack rfl ((hread _).trans ?_).symm
      rw [if_neg hopen, if_pos hclose, if_pos hdepth]
      exact (hbelow _).symm
    · exact lexes_fail _
  · refine lexes_past hs rfl ((hread _).trans ?_).symm
    rw [if_neg hopen, if_pos hclose, if_neg hdepth]
    rfl
  refine lexes_ite (fun h => ?_) fun hquote => ?_
  · refine lexes_past hs rfl ((hread _).trans ?_).symm
    rw [if_neg hopen, if_neg hclose, if_pos h]
    rfl
  · refine lexes_past hs rfl ((hread _).trans ?_).symm
    rw [if_neg hopen, if_neg hclose, if_neg hquote]
    rfl

theorem readJsonString_lexes (hs : Stacked (.jsonString depth read :: below)) :
    Lexes (lexingAt (.jsonString depth read :: below) m.assembly.pending) c rest
      (m.readJsonString below depth read (c :: rest)) := by
  rw [readJsonString]
  refine lexes_ite (fun h => ?_) fun hbackslash => ?_
  · refine lexes_past hs rfl ((Lexing.read_jsonString _ depth).trans ?_).symm
    rw [if_pos h]
    rfl
  refine lexes_ite (fun h => ?_) fun hquote => ?_
  · refine lexes_past hs rfl ((Lexing.read_jsonString _ depth).trans ?_).symm
    rw [if_neg hbackslash, if_pos h]
    rfl
  · refine lexes_past hs rfl ((Lexing.read_jsonString _ depth).trans ?_).symm
    rw [if_neg hbackslash, if_neg hquote]
    rfl

theorem readJsonEscape_lexes (hs : Stacked (.jsonEscape depth read :: below)) :
    Lexes (lexingAt (.jsonEscape depth read :: below) m.assembly.pending) c rest
      (m.readJsonEscape below depth read (c :: rest)) :=
  lexes_past hs rfl rfl

theorem readOperandName_lexes (hm : m.modes = .operandName name :: below) (hs : Stacked (.operandName name :: below))
    (hr : m.rest = c :: rest) :
    Lexes (lexingAt (.operandName name :: below) m.assembly.pending) c rest
      (m.readOperandName env below name (c :: rest)) := by
  obtain ⟨-, hbelow, hstack⟩ := id hs
  rw [readOperandName]
  refine lexes_ite (lexes_blank hm hs fun _ => rfl) fun _ => ?_
  refine lexes_ite (fun h => ?_) fun _ => ?_
  · subst h
    exact openCall_lexes ⟨trivial, fun _ => rfl, hs⟩ rfl
  · unfold endOperandName
    split
    · exact lexes_rested hstack hr (hbelow _) rfl
    · exact lexes_fail _

theorem readArguments_lexes (hm : m.modes = .arguments :: below) (hs : Stacked (.arguments :: below)) :
    Lexes (lexingAt (.arguments :: below) m.assembly.pending) c rest (m.readArguments below (c :: rest)) := by
  obtain ⟨-, hbelow, hstack⟩ := id hs
  rw [readArguments]
  refine lexes_ite (lexes_blank hm hs fun _ => rfl) fun _ => ?_
  refine lexes_ite (fun h => ?_) fun _ => lexes_ite (fun h => ?_) fun _ => lexes_fail _
  · subst h
    refine lexes_attempt fun a ha => lexes_past ⟨trivial, fun _ => rfl, trivial, fun _ => rfl, hs⟩ rfl ?_
    obtain ⟨hsame, hround⟩ := Assembly.brackets_closeArgument (frames (Mode.roles below)) ha
    have hread : ∀ bs : List Bracket, bs.head? = some .round →
        Lexing.read ⟨.none, .suffix, bs⟩ ',' = ⟨.none, .operand, bs⟩ := by
      intro bs hb
      cases bs <;> cases hb
      rfl
    exact (congrArg (Lexing.mk .none .operand) hsame).trans (hread _ hround).symm
  · subst h
    refine lexes_attempt fun a ha => lexes_past hstack rfl ((hbelow _).trans ?_)
    have hclose := Assembly.brackets_closeCall (frames (Mode.roles below)) ha
    exact (congrArg (fun bs : List Bracket => (⟨.none, .suffix, bs.tail⟩ : Lexing)) hclose).symm

theorem readFirstArgument_lexes (hm : m.modes = .firstArgument :: below) (hs : Stacked (.firstArgument :: below))
    (hr : m.rest = c :: rest) :
    Lexes (lexingAt (.firstArgument :: below) m.assembly.pending) c rest (m.readFirstArgument below (c :: rest)) := by
  obtain ⟨-, hbelow, hstack⟩ := id hs
  rw [readFirstArgument]
  refine lexes_ite (lexes_blank hm hs fun _ => rfl) fun _ => lexes_ite (fun h => ?_) fun _ => ?_
  · subst h
    refine lexes_kept hstack hr (Lexing.ended_token _ (by decide) (congrArg (·.read ')') (hbelow _)) ?_)
    exact fun _ => congrArg (·.token.continues ')') (hbelow _)
  · exact lexes_kept ⟨trivial, fun _ => rfl, hs⟩ hr (Lexing.ended_refl rfl)

end expressions

section operators

variable {read : List Char}

/-- Only an equals sign goes on with an inequality. -/
theorem continues_inequality (h : c ≠ '=') :
    PartToken.continues (.operator '<') c = false ∧ PartToken.continues (.operator '>') c = false := by
  show longOperators.contains ('<', c) = false ∧ longOperators.contains ('>', c) = false
  simp [longOperators, h]

theorem readLess_lexes (env : Env) (hs : Stacked (.less :: below)) (hr : m.rest = c :: rest) :
    Lexes (lexingAt (.less :: below) m.assembly.pending) c rest (m.readInequality below .lt .le (c :: rest)) := by
  rw [readInequality]
  refine lexes_ite (fun h => ?_) fun h => lexes_endToken env hs hr (continues_inequality h).1
  subst h
  exact lexes_past hs rfl (lexing_emitBinary _ _ _)

theorem readGreater_lexes (env : Env) (hs : Stacked (.greater :: below)) (hr : m.rest = c :: rest) :
    Lexes (lexingAt (.greater :: below) m.assembly.pending) c rest (m.readInequality below .gt .ge (c :: rest)) := by
  rw [readInequality]
  refine lexes_ite (fun h => ?_) fun h => lexes_endToken env hs hr (continues_inequality h).2
  subst h
  exact lexes_past hs rfl (lexing_emitBinary _ _ _)

theorem readHalf_lexes {mode : Mode} {half : Char} {op : BinaryOp} {fault : SyntaxFault} (hs : Stacked (mode :: below))
    (hmode : mode = .or ∧ half = '|' ∨ mode = .and ∧ half = '&') :
    Lexes (lexingAt (mode :: below) m.assembly.pending) c rest (m.readHalf below half op fault (c :: rest)) := by
  obtain ⟨-, hbelow, hstack⟩ := id hs
  rw [readHalf]
  refine lexes_ite (fun h => ?_) fun _ => lexes_fail _
  subst h
  refine lexes_past hstack rfl ((lexing_emitBinary _ _ _).trans ((hbelow _).trans ?_))
  rcases hmode with ⟨rfl, rfl⟩ | ⟨rfl, rfl⟩ <;> rfl

theorem readEqual_lexes (hs : Stacked (.equal :: below)) :
    Lexes (lexingAt (.equal :: below) m.assembly.pending) c rest (m.readEqual below (c :: rest)) := by
  rw [readEqual]
  refine lexes_ite (fun h => ?_) fun _ => lexes_ite (fun h => ?_) fun _ => lexes_fail _
  · subst h
    exact lexes_past hs rfl (lexing_emitBinary _ _ _)
  · subst h
    exact lexes_past hs rfl rfl

theorem readNotEqual_lexes (hs : Stacked (.notEqual :: below)) :
    Lexes (lexingAt (.notEqual :: below) m.assembly.pending) c rest (m.readNotEqual below (c :: rest)) := by
  rw [readNotEqual]
  refine lexes_ite (fun h => ?_) fun _ => lexes_fail _
  subst h
  exact lexes_past hs rfl (lexing_emitBinary _ _ _)

theorem readPatternStart_lexes (hm : m.modes = .patternStart :: below) (hs : Stacked (.patternStart :: below)) :
    Lexes (lexingAt (.patternStart :: below) m.assembly.pending) c rest (m.readPatternStart below (c :: rest)) := by
  rw [readPatternStart]
  refine lexes_ite (lexes_blank hm hs fun _ => rfl) fun _ => lexes_ite (fun h => ?_) fun _ => lexes_fail _
  subst h
  exact lexes_past hs rfl rfl

theorem readPattern_lexes (hs : Stacked (.pattern read :: below)) :
    Lexes (lexingAt (.pattern read :: below) m.assembly.pending) c rest (m.readPattern below read (c :: rest)) := by
  rw [readPattern]
  refine lexes_ite (fun h => ?_) fun hbackslash => lexes_ite (fun h => ?_) fun hslash => ?_
  · subst h
    exact lexes_past hs rfl rfl
  · subst h
    exact lexes_past hs rfl rfl
  · refine lexes_past hs rfl ((Lexing.read_pattern _).trans ?_).symm
    rw [if_neg hbackslash, if_neg hslash]
    rfl

theorem readPatternEscape_lexes (hs : Stacked (.patternEscape read :: below)) :
    Lexes (lexingAt (.patternEscape read :: below) m.assembly.pending) c rest
      (m.readPatternEscape below read (c :: rest)) :=
  lexes_past hs rfl rfl

theorem readPatternEnd_lexes (hs : Stacked (.patternEnd read :: below)) (hr : m.rest = c :: rest) :
    Lexes (lexingAt (.patternEnd read :: below) m.assembly.pending) c rest
      (m.readPatternEnd env below read (c :: rest)) := by
  obtain ⟨-, hbelow, hstack⟩ := id hs
  rw [readPatternEnd]
  refine lexes_ite (fun h => ?_) fun h => lexes_endToken env hs hr (decide_eq_false h)
  subst h
  unfold endPattern
  split
  · exact lexes_past hstack rfl ((lexingAt_pushOperator _ _ _).trans (hbelow _))
  · exact lexes_fail _

end operators

/-- A step before a character goes on as the tokens do. -/
theorem step_lexes (hs : Stacked m.modes) (hf : Role.Sound m.roles) (hr : m.rest = c :: rest) :
    Lexes m.lexing c rest (m.step env) := by
  cases hm : m.modes with
  | nil =>
    rw [step_nil hm]
    exact lexes_fail _
  | cons mode below =>
    rw [hm] at hs
    have hroles : m.roles = mode.role :: Mode.roles below := by rw [roles, hm]; rfl
    have hfits : mode.role.Fits (frames (Mode.roles (mode :: below))) := (hroles ▸ hf).1
    rw [step_cons hm, stepIn.eq_def, hr, lexing, hm]
    cases mode with
    | start => exact readStart_lexes hm hs hr
    | bareName use read => exact readBareName_lexes env hs hr
    | queryCall name => exact readQueryCall_lexes hm hs
    | path => exact readPath_lexes hm hs hr
    | dot => exact readDot_lexes env hs hr
    | descent => exact readDescent_lexes hs hr
    | dotName => exact readDotName_lexes hm hs hr
    | quoted quote use read => exact readQuoted_lexes hs
    | escape quote use read e => exact readEscape_lexes hs
    | element => exact readElement_lexes hm hs hr
    | elementEnd => exact readElementEnd_lexes hm hs
    | integer bound => exact readInteger_lexes hm hs hr
    | digits bound read => exact readDigits_lexes env hs hr
    | boundEnd bound read => exact readBoundEnd_lexes hm hs hr
    | filterEnd =>
      exact readExpressionEnd_lexes hm hs hr (fun _ => rfl) rfl fun _ h =>
        (Assembly.brackets_closeExpression (Frame.brackets_filter _) h).symm
    | computedEnd =>
      exact readExpressionEnd_lexes hm hs hr (fun _ => rfl) rfl fun _ h =>
        (Assembly.brackets_closeExpression (Frame.brackets_computed _) h).symm
    | operand => exact readOperand_lexes hm hs hfits hr
    | operator => exact readOperator_lexes hm hs hfits hr
    | number read => exact readNumber_lexes hs hr
    | json depth read => exact readJson_lexes hs
    | jsonString depth read => exact readJsonString_lexes hs
    | jsonEscape depth read => exact readJsonEscape_lexes hs
    | operandName name => exact readOperandName_lexes hm hs hr
    | arguments => exact readArguments_lexes hm hs
    | firstArgument => exact readFirstArgument_lexes hm hs hr
    | less => exact readLess_lexes env hs hr
    | greater => exact readGreater_lexes env hs hr
    | equal => exact readEqual_lexes hs
    | notEqual => exact readNotEqual_lexes hs
    | or => exact readHalf_lexes hs (.inl ⟨rfl, rfl⟩)
    | and => exact readHalf_lexes hs (.inr ⟨rfl, rfl⟩)
    | patternStart => exact readPatternStart_lexes hm hs
    | pattern read => exact readPattern_lexes hs
    | patternEscape read => exact readPatternEscape_lexes hs
    | patternEnd read => exact readPatternEnd_lexes hs hr

end Machine

end PathQuery
