import PathQuery.Proofs.Query.Embedded
import PathQuery.Proofs.Query.Spacing

namespace PathQuery

open Syntax (Comes Firm Stage)

/-- Characters before which an operand ends whatever it is: what closes or separates, and the operators that no number
can go on with. -/
def operandEnds : List Char := [')', ']', ',', '=', '!', '<', '>', '|', '&', '*', '/']

/-- None of them is part of a name or of a number, opens a call, or is a flag. -/
theorem operandEnds_spec : ∀ c ∈ operandEnds, isDelimiter c = true ∧ Text.isSpace c = false ∧ c ≠ '(' ∧ c ≠ 'i' ∧
    c.isDigit = false ∧ c ≠ '.' ∧ c ≠ 'e' ∧ c ≠ 'E' ∧ c ≠ '+' ∧ c ≠ '-' := by
  simp only [operandEnds, List.forall_mem_cons, List.not_mem_nil, false_implies, implies_true, and_true]
  and_intros <;> decide

/-- Modes that are complete where a text ends that is read as an operand. -/
def Mode.endsOperand : Mode → Bool
  | bareName _ _ | number _ | operandName _ | patternEnd _ => true
  | _ => false

namespace Machine

variable {m n k : Machine} {env : Env} {below : List Mode} {mode : Mode}

/-- The machine with more modes below its own. -/
def above (m : Machine) (outer : List Mode) : Machine := { m with modes := m.modes ++ outer }

section modes

variable (outer : List Mode)

theorem ite_above {p : Prop} [Decidable p] {x x' y y' : Except SyntaxError Machine} (h : x = y.map (·.above outer))
    (h' : x' = y'.map (·.above outer)) :
    (if p then x else x') = (if p then y else y').map (·.above outer) := by
  split
  · exact h
  · exact h'

theorem attempt_above (f : Assembly → Except SyntaxFault Assembly) (modes : List Mode) :
    ((m.above outer).attempt f).map (·.goto (modes ++ outer)) =
      ((m.attempt f).map (·.goto modes)).map (·.above outer) := by
  have ha : (m.above outer).assembly = m.assembly := rfl
  rw [attempt, attempt, ha]
  cases f m.assembly <;> rfl

theorem openCall_above (name : String) (c : Char) (rest : List Char) (modes : List Mode) :
    ((m.above outer).openCall env name c rest).map (·.goto (modes ++ outer)) =
      ((m.openCall env name c rest).map (·.goto modes)).map (·.above outer) := by
  rw [openCall, openCall]
  cases Function.find? name env.functions <;> rfl

theorem endName_above (use : BareUse) (read : List Char) :
    (m.above outer).endName (below ++ outer) use read = (m.endName below use read).above outer := by
  cases use <;> rfl

theorem endQuoted_above (use : QuotedUse) (read : List Char) :
    (m.above outer).endQuoted (below ++ outer) use read = (m.endQuoted below use read).above outer := by
  cases use <;> rfl

theorem endNumber_above (read : List Char) :
    (m.above outer).endNumber env (below ++ outer) read = (m.endNumber env below read).map (·.above outer) := by
  rw [endNumber, endNumber]
  cases env.number? (String.ofList read.reverse) <;> rfl

theorem endJson_above (read : List Char) :
    (m.above outer).endJson env (below ++ outer) read = (m.endJson env below read).map (·.above outer) := by
  rw [endJson, endJson]
  cases env.json? (String.ofList read.reverse) <;> rfl

theorem endOperandName_above (name : String) :
    (m.above outer).endOperandName (below ++ outer) name = (m.endOperandName below name).map (·.above outer) := by
  rw [endOperandName, endOperandName]
  cases keyword? name <;> rfl

theorem endPattern_above (read : List Char) (fold : Bool) :
    (m.above outer).endPattern env (below ++ outer) read fold =
      (m.endPattern env below read fold).map (·.above outer) := by
  rw [endPattern, endPattern]
  cases env.pattern (String.ofList read.reverse) fold <;> rfl

theorem readEscape_above (quote : Char) (use : QuotedUse) (read : List Char) (e : Text.Escape) (text : List Char) :
    (m.above outer).readEscape (below ++ outer) quote use read e text =
      (m.readEscape below quote use read e text).map (·.above outer) := by
  cases text with
  | nil => rfl
  | cons c rest =>
    simp only [readEscape]
    cases e.next Text.nameEscape? c with
    | lone => cases e <;> rfl
    | _ => rfl

theorem readBoundEnd_above (bound : Bound) (read text : List Char) :
    (m.above outer).readBoundEnd (below ++ outer) bound read text =
      (m.readBoundEnd below bound read text).map (·.above outer) := by
  cases text with
  | nil => rfl
  | cons c rest =>
    refine ite_above outer rfl (ite_above outer ?_ (ite_above outer ?_ rfl))
    · obtain ⟨i, hi⟩ | hi := readBound_cases read
      · obtain ⟨s, -, he⟩ | ⟨fault, -, he⟩ := boundSelector_cases i bound <;> rw [hi, hi]
        all_goals
          simp only [Except.bind, he]
          rfl
      · rw [hi, hi]
        rfl
    · cases bound with
      | step start stop => rfl
      | _ =>
        obtain ⟨i, hi⟩ | hi := readBound_cases read <;> rw [hi, hi]
        all_goals rfl

theorem readBareName_above (use : BareUse) (read text : List Char) :
    (m.above outer).readBareName (below ++ outer) use read text =
      (m.readBareName below use read text).map (·.above outer) := by
  have hend : (.ok ((m.above outer).endName (below ++ outer) use read) : Except SyntaxError Machine) =
      Except.map (·.above outer) (.ok (m.endName below use read)) := by
    rw [endName_above]
    rfl
  cases text with
  | nil => exact hend
  | cons c rest => exact ite_above outer hend rfl

theorem readQueryCall_above (name : String) (text : List Char) :
    (m.above outer).readQueryCall env (below ++ outer) name text =
      (m.readQueryCall env below name text).map (·.above outer) := by
  cases text with
  | nil => rfl
  | cons c rest =>
    have hcall := @openCall_above m env outer name c rest (.firstArgument :: .arguments :: .path :: below)
    exact ite_above outer rfl (ite_above outer hcall rfl)

theorem readQuoted_above (quote : Char) (use : QuotedUse) (read text : List Char) :
    (m.above outer).readQuoted (below ++ outer) quote use read text =
      (m.readQuoted below quote use read text).map (·.above outer) := by
  cases text with
  | nil => rfl
  | cons c rest =>
    have hend := @endQuoted_above (m.past c rest) below outer use read
    exact ite_above outer (congrArg Except.ok hend) (ite_above outer rfl rfl)

theorem readElementEnd_above (text : List Char) :
    (m.above outer).readElementEnd (below ++ outer) text = (m.readElementEnd below text).map (·.above outer) := by
  cases text with
  | nil => rfl
  | cons c rest =>
    have hclose := @attempt_above (m.past c rest) outer Assembly.closeUnion below
    exact ite_above outer rfl (ite_above outer rfl (ite_above outer hclose rfl))

theorem readExpressionEnd_above (close : Assembly → Except SyntaxFault Assembly) (text : List Char) :
    (m.above outer).readExpressionEnd (below ++ outer) close text =
      (m.readExpressionEnd below close text).map (·.above outer) := by
  cases text with
  | nil => rfl
  | cons c rest => exact ite_above outer rfl (ite_above outer (attempt_above outer close below) rfl)

theorem readNumber_above (read text : List Char) :
    (m.above outer).readNumber env (below ++ outer) read text =
      (m.readNumber env below read text).map (·.above outer) := by
  cases text with
  | nil => exact endNumber_above outer read
  | cons c rest => exact ite_above outer rfl (endNumber_above outer read)

theorem readJson_above (depth : Nat) (read text : List Char) :
    (m.above outer).readJson env (below ++ outer) depth read text =
      (m.readJson env below depth read text).map (·.above outer) := by
  cases text with
  | nil => rfl
  | cons c rest =>
    have hend := @endJson_above (m.past c rest) env below outer (c :: read)
    exact ite_above outer rfl (ite_above outer (ite_above outer hend rfl) (ite_above outer rfl rfl))

theorem readOperandName_above (name : String) (text : List Char) :
    (m.above outer).readOperandName env (below ++ outer) name text =
      (m.readOperandName env below name text).map (·.above outer) := by
  have hend := @endOperandName_above m below outer name
  cases text with
  | nil => exact hend
  | cons c rest =>
    have hcall := @openCall_above m env outer name c rest (.firstArgument :: .arguments :: below)
    exact ite_above outer rfl (ite_above outer hcall hend)

theorem readArguments_above (text : List Char) :
    (m.above outer).readArguments (below ++ outer) text = (m.readArguments below text).map (·.above outer) := by
  cases text with
  | nil => rfl
  | cons c rest =>
    have hnext := @attempt_above (m.past c rest) outer Assembly.closeArgument
      (.operand :: .operator :: .arguments :: below)
    have hclose := @attempt_above (m.past c rest) outer Assembly.closeCall below
    exact ite_above outer rfl (ite_above outer hnext (ite_above outer hclose rfl))

theorem readPatternEnd_above (read text : List Char) :
    (m.above outer).readPatternEnd env (below ++ outer) read text =
      (m.readPatternEnd env below read text).map (·.above outer) := by
  cases text with
  | nil => exact endPattern_above outer read false
  | cons c rest =>
    have hend := @endPattern_above (m.past c rest) env below outer read true
    exact ite_above outer hend (endPattern_above outer read false)

/-- A mode that is not behind an operand does not look at the modes below. -/
theorem stepIn_above (hm : mode ≠ .operator) :
    (m.above outer).stepIn env (below ++ outer) mode = (m.stepIn env below mode).map (·.above outer) := by
  have hr : (m.above outer).rest = m.rest := rfl
  cases mode with
  | operator => exact absurd rfl hm
  | bareName use read => exact readBareName_above outer use read m.rest
  | queryCall name => exact readQueryCall_above outer name m.rest
  | quoted quote use read => exact readQuoted_above outer quote use read m.rest
  | escape quote use read e => exact readEscape_above outer quote use read e m.rest
  | elementEnd => exact readElementEnd_above outer m.rest
  | boundEnd bound read => exact readBoundEnd_above outer bound read m.rest
  | filterEnd | computedEnd => exact readExpressionEnd_above outer _ m.rest
  | number read => exact readNumber_above outer read m.rest
  | json depth read => exact readJson_above outer depth read m.rest
  | operandName name => exact readOperandName_above outer name m.rest
  | arguments => exact readArguments_above outer m.rest
  | patternEnd read => exact readPatternEnd_above outer read m.rest
  | _ =>
    -- only what stands next decides here
    rw [stepIn, stepIn, hr]
    cases m.rest with
    | nil => rfl
    | cons c rest =>
      repeat' refine ite_above outer ?_ ?_
      all_goals rfl

/-- Behind an operand only a parenthesis shows what the modes below are. -/
theorem readOperator_above_eq {c : Char} {rest : List Char} (hc : c ≠ ')') :
    (m.above outer).readOperator (below ++ outer) (c :: rest) =
      (m.readOperator below (c :: rest)).map (·.above outer) := by
  rw [readOperator, readOperator, if_neg hc, if_neg hc]
  refine ite_above outer rfl (ite_above outer rfl (ite_above outer rfl (ite_above outer rfl ?_)))
  split
  · rfl
  · next modes _ =>
    exact congrArg (fun ms => Except.ok (((m.above outer).past c rest).goto ms))
      (List.append_assoc modes (.operator :: below) outer).symm
  · rfl

theorem readOperator_parenthesis (m : Machine) (below : List Mode) (rest : List Char) :
    m.readOperator below (')' :: rest) =
      if m.assembly.hasOpenGroup then (m.past ')' rest).attempt Assembly.closeGroup
      else if below.head? = some .arguments then .ok (m.goto below)
      else m.fail .unbalancedParenthesis := rfl

/-- Behind an operand a parenthesis is refused if it closes nothing and no arguments are below. -/
theorem readOperator_above {text : List Char} (h : m.readOperator below text = .ok n) :
    (m.above outer).readOperator (below ++ outer) text = .ok (n.above outer) := by
  cases text with
  | nil => cases h
  | cons c rest =>
    by_cases hc : c = ')'
    · subst hc
      rw [readOperator_parenthesis] at h ⊢
      split at h
      · next hg =>
        have hg' : (m.above outer).assembly.hasOpenGroup = true := hg
        rw [if_pos hg']
        obtain ⟨a, ha, rfl⟩ := attempt_eq_ok h
        exact attempt_of_ok ha
      · next hg =>
        have hg' : ¬(m.above outer).assembly.hasOpenGroup = true := hg
        split at h
        · next hb =>
          cases h
          have hb' : (below ++ outer).head? = some .arguments := by rw [List.head?_append, hb]; rfl
          rw [if_neg hg', if_pos hb']
          rfl
        · cases h
    · rw [readOperator_above_eq outer hc, h]
      rfl

/-- A step that can be taken is the same above other modes. -/
theorem step_above (h : m.step env = .ok n) : (m.above outer).step env = .ok (n.above outer) := by
  cases hm : m.modes with
  | nil =>
    rw [step_nil hm] at h
    cases h
  | cons mode below =>
    have hm' : (m.above outer).modes = mode :: (below ++ outer) := congrArg (· ++ outer) hm
    rw [step_cons hm] at h
    rw [step_cons hm']
    by_cases ho : mode = .operator
    · subst ho
      exact readOperator_above outer h
    · rw [stepIn_above outer ho, h]
      rfl

theorem Reaches.above (h : Reaches env m n) : Reaches env (m.above outer) (n.above outer) := by
  induction h with
  | refl m => exact .refl _
  | step hs _ ih => exact .step (step_above outer hs) ih

end modes

section ends

variable {c : Char} {more : List Char}

/-- Where a text that is read to its end leads behind an operand, only a name, a number or a regular expression can be
incomplete before that. -/
theorem Reaches.modes_before_operator (h : Reaches env m n) (hr : m.rest = []) (hn : n.modes = [.operator]) :
    m.modes = [.operator] ∨ ∃ mode below, m.modes = mode :: below ∧ mode.endsOperand = true := by
  induction h with
  | refl m => exact .inl hn
  | @step m k n hs _ ih =>
    cases hm : m.modes with
    | nil =>
      rw [step_nil hm] at hs
      cases hs
    | cons mode below =>
      refine .inr ⟨mode, below, rfl, ?_⟩
      rw [step_cons hm] at hs
      cases mode <;> rw [stepIn, hr] at hs
      case escape quote use read e => cases hs
      case bareName | number | operandName | patternEnd => rfl
      case dot | integer | digits | less | greater =>
        -- the mode that follows needs more of the text
        cases hs
        obtain he | ⟨mode, below, he, hends⟩ := ih hr hn
        · cases (List.cons.inj he).1
        · cases (List.cons.inj he).1
          cases hends
      all_goals cases hs

/-- What is incomplete at the end of the text ends in the same way before a character that ends an operand. -/
theorem step_append_of_ends (hc : c ∈ operandEnds) (hr : m.rest = []) (hm : m.modes = mode :: below)
    (he : mode.endsOperand = true) (h : m.step env = .ok n) :
    (m.append (c :: more)).step env = .ok (n.append (c :: more)) := by
  obtain ⟨hdelimiter, hspace, hopen, hflag, hdigit, hdot, hmark, hmark', hplus, hminus⟩ := operandEnds_spec c hc
  have hr' : (m.append (c :: more)).rest = c :: more := by
    rw [append, hr]
    rfl
  have hm' : (m.append (c :: more)).modes = mode :: below := hm
  rw [step_cons hm, stepIn.eq_def, hr] at h
  rw [step_cons hm', stepIn.eq_def, hr']
  cases mode with
  | bareName use read =>
    have hend : m.endName below use read = n := Except.ok.inj h
    show (if isDelimiter c = true then _ else _) = _
    rw [if_pos hdelimiter, ← hend]
    cases use <;> rfl
  | number read =>
    have hcontinues : continuesNumber read c = false := by
      simp [continuesNumber, hdigit, hdot, hmark, hmark', hplus, hminus]
    show (if continuesNumber read c = true then _ else _) = _
    replace h : m.endNumber env below read = .ok n := h
    rw [if_neg (by simp [hcontinues]), endNumber]
    rw [endNumber] at h
    split at h <;> cases h
    rfl
  | operandName name =>
    show (if Text.isSpace c = true then _ else if c = '(' then _ else _) = _
    replace h : m.endOperandName below name = .ok n := h
    rw [if_neg (by simp [hspace]), if_neg hopen, endOperandName]
    rw [endOperandName] at h
    split at h <;> cases h
    rfl
  | patternEnd read =>
    show (if c = 'i' then _ else _) = _
    replace h : m.endPattern env below read false = .ok n := h
    rw [if_neg hflag, endPattern]
    rw [endPattern] at h
    split at h <;> cases h
    rfl
  | _ => cases he

theorem Reaches.append_of_ends (hc : c ∈ operandEnds) (h : Reaches env m n) (hr : n.rest = [])
    (hn : n.modes = [.operator]) : Reaches env (m.append (c :: more)) (n.append (c :: more)) := by
  induction h with
  | refl m => exact .refl _
  | @step m j n hs hreach ih =>
    refine .step ?_ (ih hr hn)
    by_cases hm : m.rest = []
    · obtain hmodes | ⟨mode, below, hmodes, he⟩ := (Reaches.step hs hreach).modes_before_operator hm hn
      · rw [step_cons hmodes, stepIn, hm] at hs
        cases hs
      · exact step_append_of_ends hc hm hmodes he hs
    · rw [step_append hm, hs]
      rfl

end ends

/-- The position in the text decides nothing. -/
theorem run_movedTo {p : Program} (h : m.run env = .ok p) (position : Text.Position) :
    (m.movedTo m.rest position).run env = .ok p := by
  obtain ⟨n, hreach, hfinished, hfinish⟩ := exists_reaches h
  induction hreach generalizing position with
  | refl m =>
    have hfinished' : (m.movedTo m.rest position).isFinished = true := hfinished
    have hfinish' : (m.movedTo m.rest position).assembly.finish = .ok p := hfinish
    rw [run, if_pos hfinished', hfinish']
    rfl
  | @step m j n hs _ ih =>
    obtain ⟨past, later, hrest, hstep⟩ := step_movedTo rfl hs position
    have hsame : ((m.movedTo m.rest position).skip m.rest past).rest = j.rest := by
      rw [hrest]
      cases past with
      | false => rfl
      | true => cases hr : m.rest <;> simp [skip, movedTo, past, hr]
    rw [hsame] at hstep
    rw [run_of_step hstep]
    exact ih ((run_of_step hs).symm.trans h) later hfinished hfinish

/-- On its own, a text leads from some modes to its end, where an operator may follow. -/
def ReadsAlone (env : Env) (text : List Char) (modes : List Mode) (a b : Assembly) (i j : Nat) : Prop :=
  ∃ position, Reaches env ⟨text, .start, modes, a, i⟩ ⟨[], position, [.operator], b, j⟩

variable {text more : List Char} {modes : List Mode} {a b base : Assembly} {c : Char} {i j : Nat}

theorem Begun.before {position : Text.Position} (h : Begun ⟨text, position, modes, a, i⟩) (other : List Char)
    (below : List Mode) : Begun ⟨other, position, modes ++ below, a, i⟩ := by
  refine h.imp id ?_
  rintro ⟨hi, others, hr⟩
  refine ⟨hi, others ++ Mode.roles below, ?_⟩
  have happend : Mode.roles (modes ++ below) = Mode.roles modes ++ Mode.roles below := List.map_append
  have hmodes : Mode.roles modes = .operand :: others := hr
  show Mode.roles (modes ++ below) = _
  rw [happend, hmodes, List.cons_append]

/-- What is read alone is read so wherever it stands, with other numbers for the occurrences of the root. -/
theorem ReadsAlone.comes (h : ReadsAlone env text modes a b i j) (hc : c ∈ operandEnds) (hb : Firm base.pending)
    (ha : Begun ⟨text, .start, modes, a, i⟩) (k : Nat) :
    Comes env ⟨text ++ c :: more, modes ++ below, base.atop (k + ·) a, k + i⟩
      ⟨c :: more, .operator :: below, base.atop (k + ·) b, k + j⟩ := by
  intro position
  obtain ⟨place, hreach⟩ := h
  have hends : Reaches env ⟨text ++ [c], .start, modes ++ below, a, i⟩ ⟨[c], place, .operator :: below, b, j⟩ :=
    (hreach.append_of_ends hc rfl rfl).above below
  have hatop : Atop (k + ·) base more ⟨text ++ [c], .start, modes ++ below, a, i⟩
      ⟨text ++ c :: more, position, modes ++ below, base.atop (k + ·) a, k + i⟩ := ⟨by simp, rfl, rfl, rfl⟩
  obtain ⟨⟨rest, later, modes', assembly, roots⟩, hlater, hrest, hmodes, hassembly, hroots⟩ :=
    hends.atop (f := (k + ·)) (by simp) (by simp) (fun _ => rfl) hb (.inl (ha.before _ below)) hatop
  dsimp only at hrest hmodes hassembly hroots
  subst hrest hmodes hassembly hroots
  exact ⟨later, hlater⟩

/-- An operand makes a beginning. -/
theorem ReadsAlone.begun (h : ReadsAlone env text modes a b i j) (ha : Begun ⟨text, .start, modes, a, i⟩) :
    b.Begun := by
  obtain ⟨place, hreach⟩ := h
  refine (hreach.keeps (fun hm hs => begun_step hm hs) ha).resolve_right ?_
  rintro ⟨-, others, ho⟩
  cases ho

end Machine

end PathQuery
