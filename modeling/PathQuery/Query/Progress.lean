import PathQuery.Query.Reader

namespace PathQuery.Machine

variable {m n : Machine} {env : Env} {below modes : List Mode} {rest : List Char}

/-- A step from `m` that fails or goes on with less weight. -/
def Lowers (m : Machine) (r : Except SyntaxError Machine) : Prop := ∀ n, r = .ok n → n.weight < m.weight

@[simp] theorem past_rest (c : Char) : (m.past c rest).rest = rest := rfl
@[simp] theorem past_modes (c : Char) : (m.past c rest).modes = m.modes := rfl
@[simp] theorem goto_rest (modes : List Mode) : (m.goto modes).rest = m.rest := rfl
@[simp] theorem goto_modes (modes : List Mode) : (m.goto modes).modes = modes := rfl
@[simp] theorem emit_rest (f : Assembly → Assembly) : (m.emit f).rest = m.rest := rfl
@[simp] theorem emit_modes (f : Assembly → Assembly) : (m.emit f).modes = m.modes := rfl
@[simp] theorem emitRoot_rest : m.emitRoot.rest = m.rest := rfl
@[simp] theorem emitRoot_modes : m.emitRoot.modes = m.modes := rfl
@[simp] theorem emitCurrent_rest : m.emitCurrent.rest = m.rest := rfl
@[simp] theorem emitCurrent_modes : m.emitCurrent.modes = m.modes := rfl
@[simp] theorem emitSelector_rest (s : Selector) : (m.emitSelector s).rest = m.rest := rfl
@[simp] theorem emitSelector_modes (s : Selector) : (m.emitSelector s).modes = m.modes := rfl
@[simp] theorem emitLiteral_rest (v : Value) : (m.emitLiteral v).rest = m.rest := rfl
@[simp] theorem emitLiteral_modes (v : Value) : (m.emitLiteral v).modes = m.modes := rfl
@[simp] theorem emitOperator_rest (op : Operator) : (m.emitOperator op).rest = m.rest := rfl
@[simp] theorem emitOperator_modes (op : Operator) : (m.emitOperator op).modes = m.modes := rfl
@[simp] theorem emitBinary_rest (op : BinaryOp) : (m.emitBinary op).rest = m.rest := rfl
@[simp] theorem emitBinary_modes (op : BinaryOp) : (m.emitBinary op).modes = m.modes := rfl
@[simp] theorem openList_rest : m.openList.rest = m.rest := rfl
@[simp] theorem openList_modes : m.openList.modes = m.modes := rfl

theorem rank_pos (mode : Mode) : 0 < mode.rank := by cases mode <;> simp [Mode.rank]

/-- Leaving the innermost mode. -/
theorem weight_leave {mode : Mode} (hm : m.modes = mode :: below) : (m.goto below).weight < m.weight := by
  simp [weight, hm, rank_pos]

/-- Leaving it behind a character. -/
theorem weight_past_goto {mode : Mode} {c : Char} (hm : m.modes = mode :: below) (hr : m.rest = c :: rest) :
    ((m.past c rest).goto below).weight < m.weight := by
  simp +arith [weight, hm, hr]

@[simp] theorem lowers_ok : Lowers m (.ok n) ↔ n.weight < m.weight := by simp [Lowers]

@[simp] theorem lowers_fail (fault : SyntaxFault) : Lowers m (n.fail fault) := by simp [Lowers, fail]

@[simp] theorem lowers_ite {c : Prop} [Decidable c] {r s : Except SyntaxError Machine} :
    Lowers m (if c then r else s) ↔ (c → Lowers m r) ∧ (¬c → Lowers m s) := by
  split <;> simp [*]

theorem lowers_map {α : Type} {f : α → Machine} (h : ∀ a, (f a).weight < m.weight) :
    ∀ r : Except SyntaxError α, Lowers m (r.map f)
  | .ok a => lowers_ok.2 (h a)
  | .error e => by simp [Except.map, Lowers]

theorem lowers_bind {α : Type} {f : α → Except SyntaxError Machine} (h : ∀ a, Lowers m (f a)) :
    ∀ r : Except SyntaxError α, Lowers m (r.bind f)
  | .ok a => h a
  | .error e => by simp [Except.bind, Lowers]

/-- Only the assembly changes, so the weight is that of `n`. -/
@[simp] theorem lowers_attempt {f : Assembly → Except SyntaxFault Assembly} (h : n.weight < m.weight) :
    Lowers m (n.attempt f) := by
  unfold attempt
  split
  · exact lowers_ok.2 h
  · exact lowers_fail _

@[simp] theorem lowers_attempt_goto {f : Assembly → Except SyntaxFault Assembly}
    (h : (n.goto modes).weight < m.weight) : Lowers m ((n.attempt f).map (·.goto modes)) := by
  unfold attempt
  split
  · exact lowers_ok.2 h
  · simp [Lowers, fail, Except.map]

@[simp] theorem lowers_openCall_goto {name : String} {c : Char}
    (h : ((n.past c rest).goto modes).weight < m.weight) :
    Lowers m ((n.openCall env name c rest).map (·.goto modes)) := by
  unfold openCall
  split
  · exact lowers_ok.2 h
  · simp [Lowers, fail, Except.map]

theorem operatorStart?_rank {c : Char} (h : operatorStart? c = some (.half modes)) :
    Mode.ranks modes ≤ 4 := by
  unfold operatorStart? at h
  split at h <;> simp at h <;> subst h <;> decide

theorem weight_endName {use : BareUse} {read : List Char} (hm : m.modes = .bareName use read :: below) :
    (m.endName below use read).weight < m.weight := by
  cases use <;> simp [endName, weight, hm, Mode.rank]

@[simp] theorem endQuoted_rest (use : QuotedUse) (read : List Char) :
    (m.endQuoted below use read).rest = m.rest := by
  cases use <;> rfl

@[simp] theorem endQuoted_modes (use : QuotedUse) (read : List Char) :
    (m.endQuoted below use read).modes = below := by
  cases use <;> rfl

theorem lowers_endNumber {read : List Char} (h : (n.goto below).weight < m.weight) :
    Lowers m (n.endNumber env below read) := by
  unfold endNumber
  split
  · exact lowers_ok.2 h
  · exact lowers_fail _

theorem lowers_endJson {read : List Char} (h : (n.goto below).weight < m.weight) :
    Lowers m (n.endJson env below read) := by
  unfold endJson
  split
  · exact lowers_ok.2 h
  · exact lowers_fail _

theorem lowers_endOperandName {name : String} (h : (n.goto below).weight < m.weight) :
    Lowers m (n.endOperandName below name) := by
  unfold endOperandName
  split
  · exact lowers_ok.2 h
  · exact lowers_fail _

theorem lowers_endPattern {read : List Char} {fold : Bool} (h : (n.goto below).weight < m.weight) :
    Lowers m (n.endPattern env below read fold) := by
  unfold endPattern
  split
  · exact lowers_ok.2 h
  · exact lowers_fail _

theorem readStart_lowers (hm : m.modes = .start :: below) :
    ∀ {rest}, m.rest = rest → Lowers m (m.readStart below rest)
  | [], _ => by simp [readStart]
  | c :: rest, hr => by simp +arith [readStart, weight, hm, hr, Mode.rank]

theorem readBareName_lowers {use : BareUse} {read : List Char} (hm : m.modes = .bareName use read :: below) :
    ∀ {rest}, m.rest = rest → Lowers m (m.readBareName below use read rest)
  | [], _ => lowers_ok.2 (weight_endName hm)
  | c :: rest, hr => by
    rw [readBareName]
    split
    · exact lowers_ok.2 (weight_endName hm)
    · simp +arith [weight, hm, hr, Mode.rank]

theorem readQueryCall_lowers {name : String} (hm : m.modes = .queryCall name :: below) :
    ∀ {rest}, m.rest = rest → Lowers m (m.readQueryCall env below name rest)
  | [], _ => by simp [readQueryCall]
  | c :: rest, hr => by
    have ho : ((m.past c rest).goto (.firstArgument :: .arguments :: .path :: below)).weight < m.weight := by
      simp +arith [weight, hm, hr, Mode.rank]
    simp +arith [readQueryCall, weight, hm, hr, Mode.rank, lowers_openCall_goto ho]

theorem readPath_lowers (hm : m.modes = .path :: below) :
    ∀ {rest}, m.rest = rest → Lowers m (m.readPath below rest)
  | [], _ => by simp [readPath]
  | c :: rest, hr => by simp +arith [readPath, weight, hm, hr, Mode.rank]

theorem readDot_lowers (hm : m.modes = .dot :: below) :
    ∀ {rest}, m.rest = rest → Lowers m (m.readDot below rest)
  | [], hr => by simp +arith [readDot, weight, hm, hr, Mode.rank]
  | c :: rest, hr => by simp +arith [readDot, weight, hm, hr, Mode.rank]

theorem readDescent_lowers (hm : m.modes = .descent :: below) :
    ∀ {rest}, m.rest = rest → Lowers m (m.readDescent below rest)
  | [], _ => by simp [readDescent]
  | c :: rest, hr => by simp +arith [readDescent, weight, hm, hr, Mode.rank]

theorem readDotName_lowers (hm : m.modes = .dotName :: below) :
    ∀ {rest}, m.rest = rest → Lowers m (m.readDotName below rest)
  | [], _ => by simp [readDotName]
  | c :: rest, hr => by simp +arith [readDotName, weight, hm, hr, Mode.rank]

theorem readQuoted_lowers {quote : Char} {use : QuotedUse} {read : List Char}
    (hm : m.modes = .quoted quote use read :: below) :
    ∀ {rest}, m.rest = rest → Lowers m (m.readQuoted below quote use read rest)
  | [], _ => by simp [readQuoted]
  | c :: rest, hr => by simp +arith [readQuoted, weight, hm, hr, Mode.rank]

theorem readEscape_lowers {quote : Char} {use : QuotedUse} {read : List Char} {e : Text.Escape}
    (hm : m.modes = .escape quote use read e :: below) :
    ∀ {rest}, m.rest = rest → Lowers m (m.readEscape below quote use read e rest)
  | [], _ => by simp [readEscape]
  | c :: rest, hr => by
    simp only [readEscape]
    split
    · simp +arith [weight, hm, hr, Mode.rank]
    · simp +arith [weight, hm, hr, Mode.rank]
    · exact lowers_fail _
    · exact lowers_fail _
    · split <;> exact lowers_fail _

theorem readElement_lowers (hm : m.modes = .element :: below) :
    ∀ {rest}, m.rest = rest → Lowers m (m.readElement below rest)
  | [], _ => by simp [readElement]
  | c :: rest, hr => by simp +arith [readElement, weight, hm, hr, Mode.rank]

theorem readElementEnd_lowers (hm : m.modes = .elementEnd :: below) :
    ∀ {rest}, m.rest = rest → Lowers m (m.readElementEnd below rest)
  | [], _ => by simp [readElementEnd]
  | c :: rest, hr => by
    simp +arith [readElementEnd, weight, hm, hr, Mode.rank, lowers_attempt_goto (weight_past_goto hm hr)]

theorem readInteger_lowers {bound : Bound} (hm : m.modes = .integer bound :: below) :
    ∀ {rest}, m.rest = rest → Lowers m (m.readInteger below bound rest)
  | [], hr => by simp +arith [readInteger, weight, hm, hr, Mode.rank]
  | c :: rest, hr => by simp +arith [readInteger, weight, hm, hr, Mode.rank]

theorem readDigits_lowers {bound : Bound} {read : List Char} (hm : m.modes = .digits bound read :: below) :
    ∀ {rest}, m.rest = rest → Lowers m (m.readDigits below bound read rest)
  | [], hr => by simp +arith [readDigits, weight, hm, hr, Mode.rank]
  | c :: rest, hr => by simp +arith [readDigits, weight, hm, hr, Mode.rank]

theorem readBoundEnd_lowers {bound : Bound} {read : List Char}
    (hm : m.modes = .boundEnd bound read :: below) :
    ∀ {rest}, m.rest = rest → Lowers m (m.readBoundEnd below bound read rest)
  | [], _ => by simp [readBoundEnd]
  | c :: rest, hr => by
    have hn : ∀ bound : Bound, ((m.past c rest).goto (.integer bound :: below)).weight < m.weight := by
      intro bound
      simp +arith [weight, hm, hr, Mode.rank]
    cases bound with
    | first =>
      simp +arith [readBoundEnd, weight, hm, hr, Mode.rank, lowers_map, lowers_bind, lowers_map fun _ => hn _]
    | stop start =>
      simp +arith [readBoundEnd, weight, hm, hr, Mode.rank, lowers_map, lowers_bind, lowers_map fun _ => hn _]
    | step start stop => simp +arith [readBoundEnd, weight, hm, hr, Mode.rank, lowers_map, lowers_bind]

theorem readExpressionEnd_lowers {mode : Mode} {close : Assembly → Except SyntaxFault Assembly} (hk : mode.rank = 1)
    (hm : m.modes = mode :: below) :
    ∀ {rest}, m.rest = rest → Lowers m (m.readExpressionEnd below close rest)
  | [], _ => by simp [readExpressionEnd]
  | c :: rest, hr => by simp +arith [readExpressionEnd, weight, hm, hr, hk]

theorem readOperand_lowers (hm : m.modes = .operand :: below) :
    ∀ {rest}, m.rest = rest → Lowers m (m.readOperand below rest)
  | [], _ => by simp [readOperand]
  | c :: rest, hr => by simp +arith [readOperand, weight, hm, hr, Mode.rank]

theorem readOperator_lowers (hm : m.modes = .operator :: below) :
    ∀ {rest}, m.rest = rest → Lowers m (m.readOperator below rest)
  | [], _ => by simp [readOperator]
  | c :: rest, hr => by
    cases ho : operatorStart? c with
    | none => simp +arith [readOperator, ho, weight, hm, hr, Mode.rank]
    | some o =>
      cases o with
      | whole op => simp +arith [readOperator, ho, weight, hm, hr, Mode.rank]
      | half modes =>
        have h := operatorStart?_rank ho
        simp +arith [readOperator, ho, weight, hm, hr, Mode.rank]
        omega

theorem readNumber_lowers {read : List Char} (hm : m.modes = .number read :: below) :
    ∀ {rest}, m.rest = rest → Lowers m (m.readNumber env below read rest)
  | [], _ => lowers_endNumber (weight_leave hm)
  | c :: rest, hr => by simp +arith [readNumber, weight, hm, hr, Mode.rank, lowers_endNumber (weight_leave hm)]

theorem readJson_lowers {depth : Nat} {read : List Char} (hm : m.modes = .json depth read :: below) :
    ∀ {rest}, m.rest = rest → Lowers m (m.readJson env below depth read rest)
  | [], _ => by simp [readJson]
  | c :: rest, hr => by
    simp +arith [readJson, weight, hm, hr, Mode.rank, lowers_endJson (weight_past_goto hm hr)]

theorem readJsonString_lowers {depth : Nat} {read : List Char}
    (hm : m.modes = .jsonString depth read :: below) :
    ∀ {rest}, m.rest = rest → Lowers m (m.readJsonString below depth read rest)
  | [], _ => by simp [readJsonString]
  | c :: rest, hr => by simp +arith [readJsonString, weight, hm, hr, Mode.rank]

theorem readJsonEscape_lowers {depth : Nat} {read : List Char}
    (hm : m.modes = .jsonEscape depth read :: below) :
    ∀ {rest}, m.rest = rest → Lowers m (m.readJsonEscape below depth read rest)
  | [], _ => by simp [readJsonEscape]
  | c :: rest, hr => by simp +arith [readJsonEscape, weight, hm, hr, Mode.rank]

theorem readOperandName_lowers {name : String} (hm : m.modes = .operandName name :: below) :
    ∀ {rest}, m.rest = rest → Lowers m (m.readOperandName env below name rest)
  | [], _ => lowers_endOperandName (weight_leave hm)
  | c :: rest, hr => by
    have ho : ((m.past c rest).goto (.firstArgument :: .arguments :: below)).weight < m.weight := by
      simp +arith [weight, hm, hr, Mode.rank]
    simp +arith [readOperandName, weight, hm, hr, Mode.rank, lowers_openCall_goto ho,
      lowers_endOperandName (weight_leave hm)]

theorem readArguments_lowers (hm : m.modes = .arguments :: below) :
    ∀ {rest}, m.rest = rest → Lowers m (m.readArguments below rest)
  | [], _ => by simp [readArguments]
  | c :: rest, hr => by
    have ho : ((m.past c rest).goto (.operand :: .operator :: .arguments :: below)).weight < m.weight := by
      simp +arith [weight, hm, hr, Mode.rank]
    simp +arith [readArguments, weight, hm, hr, Mode.rank, lowers_attempt_goto ho,
      lowers_attempt_goto (weight_past_goto hm hr)]

theorem readFirstArgument_lowers (hm : m.modes = .firstArgument :: below) :
    ∀ {rest}, m.rest = rest → Lowers m (m.readFirstArgument below rest)
  | [], _ => by simp [readFirstArgument]
  | c :: rest, hr => by simp +arith [readFirstArgument, weight, hm, hr, Mode.rank]

theorem operand_rank : Mode.operand.rank = 3 := rfl

theorem readInequality_lowers {mode : Mode} {strict inclusive : BinaryOp} (hk : mode.rank = 4)
    (hm : m.modes = mode :: below) :
    ∀ {rest}, m.rest = rest → Lowers m (m.readInequality below strict inclusive rest)
  | [], hr => by simp +arith [readInequality, weight, hm, hr, hk, operand_rank]
  | c :: rest, hr => by simp +arith [readInequality, weight, hm, hr, hk, operand_rank]

theorem readEqual_lowers (hm : m.modes = .equal :: below) :
    ∀ {rest}, m.rest = rest → Lowers m (m.readEqual below rest)
  | [], _ => by simp [readEqual]
  | c :: rest, hr => by simp +arith [readEqual, weight, hm, hr, Mode.rank]

theorem readNotEqual_lowers (hm : m.modes = .notEqual :: below) :
    ∀ {rest}, m.rest = rest → Lowers m (m.readNotEqual below rest)
  | [], _ => by simp [readNotEqual]
  | c :: rest, hr => by simp +arith [readNotEqual, weight, hm, hr, Mode.rank]

theorem readHalf_lowers {mode : Mode} {half : Char} {op : BinaryOp} {fault : SyntaxFault}
    (hm : m.modes = mode :: below) :
    ∀ {rest}, m.rest = rest → Lowers m (m.readHalf below half op fault rest)
  | [], _ => by simp [readHalf]
  | c :: rest, hr => by simp +arith [readHalf, weight, hm, hr]

theorem readPatternStart_lowers (hm : m.modes = .patternStart :: below) :
    ∀ {rest}, m.rest = rest → Lowers m (m.readPatternStart below rest)
  | [], _ => by simp [readPatternStart]
  | c :: rest, hr => by simp +arith [readPatternStart, weight, hm, hr, Mode.rank]

theorem readPattern_lowers {read : List Char} (hm : m.modes = .pattern read :: below) :
    ∀ {rest}, m.rest = rest → Lowers m (m.readPattern below read rest)
  | [], _ => by simp [readPattern]
  | c :: rest, hr => by simp +arith [readPattern, weight, hm, hr, Mode.rank]

theorem readPatternEscape_lowers {read : List Char} (hm : m.modes = .patternEscape read :: below) :
    ∀ {rest}, m.rest = rest → Lowers m (m.readPatternEscape below read rest)
  | [], _ => by simp [readPatternEscape]
  | c :: rest, hr => by simp +arith [readPatternEscape, weight, hm, hr, Mode.rank]

theorem readPatternEnd_lowers {read : List Char} (hm : m.modes = .patternEnd read :: below) :
    ∀ {rest}, m.rest = rest → Lowers m (m.readPatternEnd env below read rest)
  | [], _ => lowers_endPattern (weight_leave hm)
  | c :: rest, hr => by
    simp [readPatternEnd, lowers_endPattern (weight_past_goto hm hr), lowers_endPattern (weight_leave hm)]

/-- Every step lowers the weight. -/
theorem step_lowers (m : Machine) (env : Env) : Lowers m (m.step env) := by
  unfold step
  split
  · exact lowers_fail _
  · next mode below hm =>
    cases mode <;> simp only [stepIn]
    · exact readStart_lowers hm rfl
    · exact readBareName_lowers hm rfl
    · exact readQueryCall_lowers hm rfl
    · exact readPath_lowers hm rfl
    · exact readDot_lowers hm rfl
    · exact readDescent_lowers hm rfl
    · exact readDotName_lowers hm rfl
    · exact readQuoted_lowers hm rfl
    · exact readEscape_lowers hm rfl
    · exact readElement_lowers hm rfl
    · exact readElementEnd_lowers hm rfl
    · exact readInteger_lowers hm rfl
    · exact readDigits_lowers hm rfl
    · exact readBoundEnd_lowers hm rfl
    · exact readExpressionEnd_lowers rfl hm rfl
    · exact readExpressionEnd_lowers rfl hm rfl
    · exact readOperand_lowers hm rfl
    · exact readOperator_lowers hm rfl
    · exact readNumber_lowers hm rfl
    · exact readJson_lowers hm rfl
    · exact readJsonString_lowers hm rfl
    · exact readJsonEscape_lowers hm rfl
    · exact readOperandName_lowers hm rfl
    · exact readArguments_lowers hm rfl
    · exact readFirstArgument_lowers hm rfl
    · exact readInequality_lowers rfl hm rfl
    · exact readInequality_lowers rfl hm rfl
    · exact readEqual_lowers hm rfl
    · exact readNotEqual_lowers hm rfl
    · exact readHalf_lowers hm rfl
    · exact readHalf_lowers hm rfl
    · exact readPatternStart_lowers hm rfl
    · exact readPattern_lowers hm rfl
    · exact readPatternEscape_lowers hm rfl
    · exact readPatternEnd_lowers hm rfl

end PathQuery.Machine
