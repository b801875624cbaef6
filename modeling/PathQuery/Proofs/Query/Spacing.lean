import PathQuery.Proofs.Query.Scanning
import PathQuery.Standard

namespace PathQuery

open Mode (Stacked)
open Syntax (skipsBlanks)

/-- Modes within a token that ends before whatever is not more of it. -/
def Mode.endsToken : Mode → Bool
  | bareName _ _ | dot | descent | digits _ _ | number _ | less | greater | patternEnd _ => true
  | _ => false

namespace Machine

variable {m n : Machine} {env : Env} {below : List Mode} {mode : Mode} {cut : Bool} {text spread : List Char}
  {σ : Lexing} {p : Program}

/-- The machine before another text, at another position. -/
def movedTo (m : Machine) (text : List Char) (position : Text.Position) : Machine := { m with rest := text, position }

/-- Before another text with the same first character the step is the same. -/
theorem step_movedTo (hnext : text.head? = m.rest.head?) (h : m.step env = .ok n) (position : Text.Position) :
    ∃ past later, n.rest = (m.skip m.rest past).rest ∧
      (m.movedTo text position).step env = .ok (n.movedTo ((m.movedTo text position).skip text past).rest later) := by
  have hm : m.modes ≠ [] := modes_ne_nil_of_step h
  have hsees : (m.movedTo text position).SeesAs m := ⟨rfl, hnext, rfl⟩
  obtain ⟨r, below, -, v, -, hx, hy⟩ := @step_move m _ env hsees hm
  rw [hx] at h
  cases v with
  | refuse => cases h
  | take past act modes =>
    rw [makes] at h
    split at h
    · next a ha =>
      cases h
      have hperform : act.perform (m.movedTo text position).roots (m.movedTo text position).assembly = .ok a := ha
      rw [hy, makes, hperform]
      exact ⟨past, _, rfl, rfl⟩
    · cases h

theorem step_movedTo_nil (hr : m.rest = []) (h : m.step env = .ok n) (position : Text.Position) :
    n.rest = [] ∧ ∃ later, (m.movedTo [] position).step env = .ok (n.movedTo [] later) := by
  obtain ⟨past, later, hrest, hstep⟩ := step_movedTo (by rw [hr]) h position
  rw [hr] at hrest
  cases past <;> exact ⟨hrest.trans hr, later, hstep⟩

theorem step_movedTo_cons {c : Char} (hr : m.rest = c :: text) (h : m.step env = .ok n) (spread : List Char)
    (position : Text.Position) : ∃ later,
      n.rest = text ∧ (m.movedTo (c :: spread) position).step env = .ok (n.movedTo spread later) ∨
        n.rest = c :: text ∧ (m.movedTo (c :: spread) position).step env = .ok (n.movedTo (c :: spread) later) := by
  have hnext : (c :: spread).head? = m.rest.head? := by rw [hr]; rfl
  obtain ⟨past, later, hrest, hstep⟩ := step_movedTo hnext h position
  rw [hr] at hrest
  cases past with
  | true => exact ⟨later, .inl ⟨hrest, hstep⟩⟩
  | false => exact ⟨later, .inr ⟨hrest.trans hr, hstep⟩⟩

theorem lexing_of_modes (hm : m.modes = mode :: below) : ∃ bs, m.lexing = mode.lexing bs :=
  ⟨_, by rw [lexing, hm]; rfl⟩

/-- A token ends before a text that does not go on with it. -/
theorem step_of_endsToken (hm : m.modes = mode :: below) (he : mode.endsToken = true)
    (hgo : m.lexing.goesOn m.rest = false) (hd : mode = .descent → ∃ c rest, m.rest = c :: rest ∧ c ≠ '[') :
    m.step env = m.endToken env below mode := by
  obtain ⟨bs, hl⟩ := lexing_of_modes hm
  rw [hl] at hgo
  rw [step_cons hm]
  cases hr : m.rest with
  | nil =>
    cases mode with
    | descent =>
      obtain ⟨c, rest, hrest, -⟩ := hd rfl
      rw [hr] at hrest
      cases hrest
    | bareName | dot | digits | number | less | greater | patternEnd => rw [stepIn, hr]; rfl
    | _ => cases he
  | cons c rest =>
    rw [hr] at hgo
    cases mode with
    | bareName use read =>
      have hc : (!isDelimiter c) = false := hgo
      rw [stepIn, hr, readBareName, if_pos (by simpa using hc)]
      rfl
    | descent =>
      obtain ⟨d, others, hrest, hne⟩ := hd rfl
      rw [hr] at hrest
      cases hrest
      rw [stepIn, hr, readDescent, if_neg hne]
      rfl
    | dot =>
      rw [stepIn, hr, readDot, if_neg (of_decide_eq_false hgo)]
      rfl
    | digits bound read =>
      have hc : c.isDigit = false := hgo
      rw [stepIn, hr, readDigits, if_neg (Bool.eq_false_iff.1 hc)]
      rfl
    | number read =>
      have hc : continuesNumber read c = false := hgo
      rw [stepIn, hr, readNumber, if_neg (Bool.eq_false_iff.1 hc)]
      rfl
    | less | greater =>
      have hc : c ≠ '=' := by
        rintro rfl
        cases hgo
      rw [stepIn, hr, readInequality, if_neg hc]
      rfl
    | patternEnd read =>
      rw [stepIn, hr, readPatternEnd, if_neg (of_decide_eq_false hgo)]
      rfl
    | _ => cases he

/-- Any other token has to go on. -/
theorem step_of_not_endsToken (hm : m.modes = mode :: below) (he : mode.endsToken = false)
    (hk : skipsBlanks mode = false) (hgo : m.lexing.goesOn m.rest = false) : m.step env ≠ .ok n := by
  intro h
  obtain ⟨bs, hl⟩ := lexing_of_modes hm
  rw [hl] at hgo
  rw [step_cons hm] at h
  cases hr : m.rest with
  | nil =>
    cases mode with
    | quoted | escape | json | jsonString | jsonEscape | equal | notEqual | or | and | pattern | patternEscape =>
      rw [stepIn, hr] at h
      cases h
    | bareName | dot | descent | digits | number | less | greater | patternEnd => cases he
    | _ => cases hk
  | cons c rest =>
    rw [hr] at hgo
    cases mode with
    | escape quote use read e => cases e <;> cases hgo
    | quoted | json | jsonString | jsonEscape | pattern | patternEscape => cases hgo
    | equal =>
      have hne : c ≠ '=' ∧ c ≠ '~' := by
        constructor <;> rintro rfl <;> cases hgo
      rw [stepIn, hr, readEqual, if_neg hne.1, if_neg hne.2] at h
      cases h
    | notEqual =>
      have hne : c ≠ '=' := by
        rintro rfl
        cases hgo
      rw [stepIn, hr, readNotEqual, if_neg hne] at h
      cases h
    | or =>
      have hne : c ≠ '|' := by
        rintro rfl
        cases hgo
      rw [stepIn, hr, readHalf, if_neg hne] at h
      cases h
    | and =>
      have hne : c ≠ '&' := by
        rintro rfl
        cases hgo
      rw [stepIn, hr, readHalf, if_neg hne] at h
      cases h
    | bareName | dot | descent | digits | number | less | greater | patternEnd => cases he
    | _ => cases hk

theorem stacked_step (hs : Stacked m.modes) (hf : Role.Sound m.roles) (h : m.step env = .ok n) : Stacked n.modes := by
  cases hr : m.rest with
  | cons c rest => exact (step_lexes hs hf hr n h).1
  | nil =>
    cases hm : m.modes with
    | nil =>
      rw [step_nil hm] at h
      cases h
    | cons mode below =>
      rw [hm] at hs
      cases he : mode.endsToken with
      | true =>
        have hd : mode ≠ .descent := by
          rintro rfl
          rw [step_cons hm, stepIn, hr] at h
          cases h
        have hgo : m.lexing.goesOn m.rest = false := by rw [hr]; rfl
        rw [step_of_endsToken hm he hgo fun h => absurd h hd] at h
        exact (endToken_ok hs h).1
      | false =>
        rw [step_cons hm] at h
        cases mode with
        | integer bound =>
          rw [stepIn, hr] at h
          cases h
          exact hs
        | operandName name =>
          rw [stepIn, hr, readOperandName, endOperandName] at h
          split at h <;> cases h
          exact hs.2.2
        | bareName | dot | descent | digits | number | less | greater | patternEnd => cases he
        | _ =>
          rw [stepIn, hr] at h
          cases h

theorem endToken_movedTo (h : m.endToken env below mode = .ok n) (text : List Char) (position : Text.Position) :
    (m.movedTo text position).endToken env below mode = .ok (n.movedTo text position) := by
  cases mode with
  | bareName use read => cases use <;> cases h <;> rfl
  | dot | descent | digits | less | greater =>
    cases h
    rfl
  | number read =>
    rw [endToken, endNumber] at h ⊢
    split at h <;> cases h
    rfl
  | patternEnd read =>
    rw [endToken, endPattern] at h ⊢
    split at h <;> cases h
    rfl
  | _ => cases h

theorem run_of_error {e : SyntaxError} (hf : m.isFinished = false) (h : m.step env = .error e) :
    m.run env = .error e := by
  rw [run, if_neg (by simp [hf])]
  split
  · next e' he =>
    cases h.symm.trans he
    rfl
  · next k hk => simp [h] at hk

/-- A member name does not begin with a bracket. -/
theorem run_dotName (h : Spread cut σ ('[' :: text) spread) (hm : m.modes = .dotName :: below) (hr : m.rest = spread) :
    ∃ position, m.run env = .error ⟨.expectedName, position⟩ := by
  generalize hsource : '[' :: text = source at h
  induction h generalizing m with
  | done => cases hsource
  | keep c h ih =>
    cases hsource
    have hf : m.isFinished = false := by simp [isFinished, hm]
    refine ⟨m.position, run_of_error hf ?_⟩
    rw [step_cons hm, stepIn, hr]
    rfl
  | @blank cut σ source spread b hb hg ht h ih =>
    have hstep : m.step env = .ok (m.past b spread) := by
      rw [step_cons hm, stepIn, hr, readDotName, if_pos hb]
    rw [run_of_step hstep]
    exact ih hm rfl hsource

/-- What reading a text with more blanks comes to. -/
def Gives (env : Env) (cut : Bool) (p : Program) (m : Machine) : Prop :=
  if cut then ∃ position, m.run env = .error ⟨.expectedName, position⟩ else m.run env = .ok p

theorem gives_of_run (h : m.run env = n.run env) : Gives env cut p m ↔ Gives env cut p n := by
  rw [Gives, Gives, h]

/-- A blank between two tokens is skipped. -/
theorem run_blank (hm : m.modes = mode :: below) (hk : skipsBlanks mode = true) {b : Char} (hb : Text.isSpace b = true)
    (position : Text.Position) :
    ∃ later, (m.movedTo (b :: spread) position).run env = (m.movedTo spread later).run env := by
  have hcomes : Syntax.Comes env ⟨b :: spread, mode :: below, m.assembly, m.roots⟩
      ⟨spread, mode :: below, m.assembly, m.roots⟩ := Syntax.comes_blank hk hb
  obtain ⟨later, hreach⟩ := hcomes position
  have hat : ∀ text position, Syntax.Stage.at ⟨text, mode :: below, m.assembly, m.roots⟩ position =
      m.movedTo text position := by
    intro text position
    rw [Syntax.Stage.at, movedTo, ← hm]
  rw [hat, hat] at hreach
  exact ⟨later, hreach.run⟩

theorem exists_step (hm : m.run env = .ok p) (hf : m.isFinished = false) : ∃ k, m.step env = .ok k := by
  cases h : m.step env with
  | ok k => exact ⟨k, rfl⟩
  | error e =>
    rw [run_of_error hf h] at hm
    cases hm

/-- What is due depends on the innermost mode alone. -/
theorem lexing_due (hm : m.modes = mode :: below) : m.lexing.due = (mode.lexing []).due := by
  obtain ⟨bs, hl⟩ := lexing_of_modes hm
  rw [hl]
  cases mode with
  | escape quote use read e => cases e <;> rfl
  | _ => rfl

theorem exists_modes (hm : m.run env = .ok p) : ∃ mode below, m.modes = mode :: below := by
  cases hmodes : m.modes with
  | cons mode below => exact ⟨mode, below, rfl⟩
  | nil =>
    rw [run_of_error (by simp [isFinished, hmodes]) (step_nil hmodes)] at hm
    cases hm

section

variable (hm : m.run env = .ok p)
  (hnext : ∀ k, m.step env = .ok k → ∀ {cut text}, Spread cut k.lexing k.rest text → ∀ position,
    Gives env cut p (k.movedTo text position))

include hm hnext

/-- At the end of both texts. -/
theorem gives_done (hr : m.rest = []) (position : Text.Position) : Gives env false p (m.movedTo [] position) := by
  cases hfin : m.isFinished with
  | true =>
    rw [run, if_pos hfin] at hm
    have hfinished : (m.movedTo [] position).isFinished = true := isFinished_iff.2 ⟨rfl, (isFinished_iff.1 hfin).2⟩
    have hfinish : (m.movedTo [] position).assembly.finish = .ok p := mapError_eq_ok hm
    show (m.movedTo [] position).run env = .ok p
    rw [run, if_pos hfinished, hfinish]
    rfl
  | false =>
    obtain ⟨k, hk⟩ := exists_step hm hfin
    obtain ⟨hrest, later, hstep⟩ := step_movedTo_nil hr hk position
    rw [gives_of_run (run_of_step hstep)]
    refine hnext k hk ?_ later
    rw [hrest]
    exact .done _

/-- Before the same character. -/
theorem gives_keep (hs : Stacked m.modes) (hf : m.Fitting) {c : Char} (hr : m.rest = c :: text)
    (h : Spread cut (m.lexing.read c) text spread) (position : Text.Position) :
    Gives env cut p (m.movedTo (c :: spread) position) := by
  obtain ⟨k, hk⟩ := exists_step hm (by simp [isFinished, hr])
  obtain ⟨later, ⟨hrest, hstep⟩ | ⟨hrest, hstep⟩⟩ := step_movedTo_cons hr hk spread position
  · rw [gives_of_run (run_of_step hstep)]
    refine hnext k hk ?_ later
    obtain ⟨-, ⟨-, hl⟩ | ⟨hkept, -⟩⟩ := step_lexes hs hf.sound hr k hk
    · rw [hl, hrest]
      exact h
    · exact absurd (hkept.symm.trans hrest) (List.cons_ne_self c text)
  · rw [gives_of_run (run_of_step hstep)]
    refine hnext k hk ?_ later
    obtain ⟨-, ⟨hpast, -⟩ | ⟨-, hl⟩⟩ := step_lexes hs hf.sound hr k hk
    · exact absurd (hrest.symm.trans hpast) (List.cons_ne_self c text)
    · rw [hrest]
      exact .keep c (hl.reads ▸ h)

/-- Before a blank that ends a token. -/
theorem gives_ended (hs : Stacked m.modes) (hmodes : m.modes = mode :: below) (hk : skipsBlanks mode = false) {b : Char}
    (hb : Text.isSpace b = true) (hg : m.lexing.token.continues b = false) (ht : m.lexing.goesOn m.rest = false)
    (h : Spread cut m.lexing m.rest (b :: spread)) (hcut : m.lexing.due = .name → m.rest.head? = some '[' → cut = true)
    (position : Text.Position) : Gives env cut p (m.movedTo (b :: spread) position) := by
  have hpath : m.isFinished = false := by
    cases hfin : m.isFinished with
    | false => rfl
    | true =>
      rw [(isFinished_iff.1 hfin).2] at hmodes
      cases hmodes
      cases hk
  obtain ⟨k, hstep⟩ := exists_step hm hpath
  -- any other token would have to go on, and what follows does not
  have he : mode.endsToken = true := by
    cases he : mode.endsToken with
    | true => rfl
    | false => exact absurd hstep (step_of_not_endsToken hmodes he hk ht)
  have hbracket : b ≠ '[' := by
    rintro rfl
    cases hb
  have hblank : (m.movedTo (b :: spread) position).step env =
      (m.movedTo (b :: spread) position).endToken env below mode :=
    step_of_endsToken hmodes he hg fun _ => ⟨b, spread, rfl, hbracket⟩
  by_cases hparts : m.lexing.due = .name ∧ m.rest.head? = some '['
  · -- behind the blank a member name is due and the bracket is found
    obtain rfl := hcut hparts.1 hparts.2
    obtain ⟨source, hsource⟩ := List.head?_eq_some_iff.1 hparts.2
    rw [hsource] at h
    have hdotName : (m.movedTo (b :: spread) position).step env =
        .ok ((m.movedTo (b :: spread) position).goto (.dotName :: below)) := by
      rw [hblank]
      rw [lexing_due hmodes] at hparts
      cases mode with
      | dot | descent => rfl
      | _ => cases he <;> cases hparts.1
    rw [gives_of_run (run_of_step hdotName)]
    exact run_dotName h rfl rfl
  · -- both machines end the token, one before the blank and the other before what follows it
    have hend : m.step env = m.endToken env below mode := by
      refine step_of_endsToken hmodes he ht ?_
      rintro rfl
      cases hr : m.rest with
      | nil =>
        rw [step_cons hmodes, stepIn, hr] at hstep
        cases hstep
      | cons c rest =>
        refine ⟨c, rest, rfl, ?_⟩
        rintro rfl
        exact hparts ⟨lexing_due hmodes, by rw [hr]; rfl⟩
    rw [hend] at hstep
    rw [gives_of_run (run_of_step (hblank.trans (endToken_movedTo hstep _ position)))]
    obtain ⟨-, hrest, hl⟩ := endToken_ok (hmodes ▸ hs) hstep
    rw [← hmodes] at hl
    refine hnext k (hend.trans hstep) ?_ position
    rw [hrest, hl]
    exact h.rested ht

end

/-- What is read in step with a run that succeeds, if this holds from the next step on. -/
theorem gives_of_next (hs : Stacked m.modes) (hf : m.Fitting) (hm : m.run env = .ok p)
    (hnext : ∀ k, m.step env = .ok k → ∀ {cut text}, Spread cut k.lexing k.rest text → ∀ position,
      Gives env cut p (k.movedTo text position))
    (h : Spread cut m.lexing m.rest text) (position : Text.Position) : Gives env cut p (m.movedTo text position) := by
  -- blanks are skipped while `m` stands still, so the induction is on how the texts are related
  generalize hσ : m.lexing = σ at h
  generalize hsource : m.rest = source at h
  induction h generalizing position with
  | done σ => exact gives_done hm hnext hsource position
  | keep c h ih => exact gives_keep hm hnext hs hf hsource (hσ ▸ h) position
  | @blank cut σ source spread b hb hg ht h ih =>
    obtain ⟨mode, below, hmodes⟩ := exists_modes hm
    subst hσ hsource
    cases hk : skipsBlanks mode with
    | true =>
      obtain ⟨later, hrun⟩ := run_blank hmodes hk hb position
      rw [gives_of_run hrun]
      -- where a name is due and blanks are skipped, a bracket is refused
      have hpart : ¬(m.lexing.due = .name ∧ m.rest.head? = some '[') := by
        rintro ⟨hname, hbracket⟩
        obtain ⟨source, hsource⟩ := List.head?_eq_some_iff.1 hbracket
        obtain ⟨k, hstep⟩ := exists_step hm (by simp [isFinished, hsource])
        rw [lexing_due hmodes] at hname
        rw [step_cons hmodes] at hstep
        cases mode with
        | dotName =>
          rw [stepIn, hsource] at hstep
          cases hstep
        | _ => cases hk <;> cases hname
      simp only [← Bool.decide_and, decide_eq_false hpart, Bool.or_false]
      exact ih later rfl rfl
    | false =>
      refine gives_ended hm hnext hs hmodes hk hb hg ht (.blank hb hg ht h) ?_ position
      intro hname hbracket
      simp [hname, hbracket]

/-- A text with more blanks is read in step with the whole run. -/
theorem gives_spread (hs : Stacked m.modes) (hf : m.Fitting) (hm : m.run env = .ok p)
    (h : Spread cut m.lexing m.rest text) (position : Text.Position) : Gives env cut p (m.movedTo text position) := by
  induction m using Machine.run.induct env generalizing cut text position with
  | case1 m hfin =>
    refine gives_of_next hs hf hm ?_ h position
    intro k hk
    exact absurd hfin (not_isFinished_of_step hk)
  | case2 m hfin e he =>
    rw [run_of_error (Bool.eq_false_iff.2 hfin) he] at hm
    cases hm
  | case3 m hfin k hk ih =>
    refine gives_of_next hs hf hm ?_ h position
    intro k' hk' cut text h position
    cases hk.symm.trans hk'
    rw [run_of_step hk] at hm
    exact ih (stacked_step hs hf.sound hk) (fitting_step hf hk) hm h position

end Machine

namespace Query

variable {env : Env} {s t : String} {q : Query} {cut : Bool}

/-- Blanks before, behind and between the tokens of a query make no difference, unless one stands between two dots and
the bracket behind them: then the bracket is refused as a member name. -/
theorem blanks_between_tokens (hq : compileWith env s = .ok q) (h : Spread cut .start s.toList t.toList) :
    if cut then ∃ position, compileWith env t = .error ⟨.expectedName, position⟩ else compileWith env t = .ok q := by
  obtain ⟨p, hp, rfl⟩ := map_eq_ok hq
  have hgives := Machine.gives_spread (m := .start s.toList) ⟨trivial, fun _ => rfl, trivial⟩
    (Machine.fitting_start s.toList) hp h .start
  have htext : (Machine.start s.toList).movedTo t.toList .start = .start t.toList := rfl
  rw [htext, Machine.Gives] at hgives
  cases cut with
  | true =>
    obtain ⟨position, hrun⟩ := hgives
    refine ⟨position, ?_⟩
    rw [compileWith, Program.ofText, hrun]
    rfl
  | false =>
    have hrun : (Machine.start t.toList).run env.withLibrary = .ok p := hgives
    show compileWith env t = .ok ⟨p⟩
    rw [compileWith, Program.ofText, hrun]
    rfl

theorem blanks_between_tokens_filter :
    ∃ q, compileWith (.standard []) "$.a[?@<=1]" = .ok q ∧
      Spread false .start "$.a[?@<=1]".toList " $.\ta[ ?@ <= 1\r]\n".toList ∧
      compileWith (.standard []) " $.\ta[ ?@ <= 1\r]\n" = .ok q := by
  have hq : compileWith (.standard []) "$.a[?@<=1]" = .ok ⟨[.root, .path [.root 0, .member "a",
      .filter [.current, .path [.current], .literal (.ofInt 1), .binary .le]]]⟩ := compileWith_of_runFor (k := 40) rfl
  have hspread : Spread false .start "$.a[?@<=1]".toList " $.\ta[ ?@ <= 1\r]\n".toList :=
    .elsewhere rfl rfl rfl rfl <| .keep '$' <| .keep '.' <| .elsewhere rfl rfl rfl rfl <| .keep 'a' <| .keep '[' <|
      .elsewhere rfl rfl rfl rfl <| .keep '?' <| .keep '@' <| .elsewhere rfl rfl rfl rfl <| .keep '<' <| .keep '=' <|
      .elsewhere rfl rfl rfl rfl <| .keep '1' <| .elsewhere rfl rfl rfl rfl <| .keep ']' <|
      .elsewhere rfl rfl rfl rfl <| .done _
  exact ⟨_, hq, hspread, blanks_between_tokens hq hspread⟩

/-- A blank may not stand between two dots and a bracket. -/
theorem bracket_apart_from_dots :
    (∃ q, compileWith (.standard []) "$..[0]" = .ok q) ∧ Spread true .start "$..[0]".toList "$.. [0]".toList ∧
      ∃ position, compileWith (.standard []) "$.. [0]" = .error ⟨.expectedName, position⟩ := by
  have hq : compileWith (.standard []) "$..[0]" = .ok ⟨[.root, .path [.root 0, .descend, .index 0]]⟩ :=
    compileWith_of_runFor (k := 40) rfl
  have hpart : Spread true ⟨.none, .name, []⟩ "[0]".toList " [0]".toList :=
    @Spread.blank false ⟨.none, .name, []⟩ "[0]".toList "[0]".toList ' ' rfl rfl rfl <|
      .keep '[' <| .keep '0' <| .keep ']' <| .done _
  have hs : Spread true .start "$..[0]".toList "$.. [0]".toList := .keep '$' <| .keep '.' <| .keep '.' hpart
  have hrun : ∃ m : Machine, Machine.Reaches (Env.standard []).withLibrary (.start "$.. [0]".toList) m ∧
      m.isFinished = false ∧ m.step (Env.standard []).withLibrary = .error ⟨.expectedName, m.position⟩ :=
    ⟨_, .step rfl <| .step rfl <| .step rfl <| .step rfl <| .step rfl <| .refl _, rfl, rfl⟩
  obtain ⟨m, hreach, hfin, herror⟩ := hrun
  refine ⟨⟨_, hq⟩, hs, m.position, ?_⟩
  rw [compileWith, Program.ofText, hreach.run, Machine.run_of_error hfin herror]
  rfl

end Query

end PathQuery
