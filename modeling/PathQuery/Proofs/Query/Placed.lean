import PathQuery.Proofs.Except
import PathQuery.Proofs.Query.Spacing

namespace PathQuery

namespace Assembly

variable {a : Assembly}

/-- The fault of a text that ends too early. -/
abbrev IsEnd (fault : SyntaxFault) : Prop := fault = .unexpectedEnd

theorem spares_ofItems (items : List Item) : Spares IsEnd (Program.ofItems items) := by
  unfold Program.ofItems
  split <;> simp

theorem spares_takeTo (isMark : Item → Bool) (a : Assembly) : Spares IsEnd (a.takeTo isMark) := by
  unfold takeTo
  split <;> simp

theorem spares_closeScope (a : Assembly) : Spares IsEnd a.closeScope := by
  unfold closeScope
  split <;> simp

theorem spares_closeArgument (a : Assembly) : Spares IsEnd a.closeArgument := by
  have hs : Spares IsEnd a.settleScope := by
    unfold settleScope
    split <;> simp
  exact hs.map _

theorem spares_closeExpression (isMark : Item → Bool) (selector : Program → Selector) (a : Assembly) :
    Spares IsEnd (a.closeExpression isMark selector) :=
  (spares_closeScope a).bind fun b => (spares_takeTo _ b).bind fun c =>
    (spares_ofItems c.2.1).bind fun _ => spares_ok _

theorem spares_closeCall (a : Assembly) : Spares IsEnd a.closeCall := by
  have hlast : Spares IsEnd a.closeLastArgument := by
    unfold closeLastArgument
    split
    · exact spares_ok _
    · exact spares_closeArgument a
  refine hlast.bind fun b => (spares_closeScope b).bind fun c => (spares_takeTo _ c).bind fun d => ?_
  dsimp only
  split
  · exact (Spares.mapM spares_ofItems _).bind fun arguments => by simp
  · simp

theorem spares_closeUnion (a : Assembly) : Spares IsEnd a.closeUnion := by
  refine (spares_takeTo _ a).bind fun b => ?_
  dsimp only
  split
  · exact spares_ok _
  · exact (Spares.mapM (fun items => spares_ofItems _) _).bind fun _ => spares_ok _

theorem spares_closeGroup (a : Assembly) : Spares IsEnd a.closeGroup := by
  unfold closeGroup
  split <;> simp

end Assembly

namespace Machine

open Assembly

variable {m n : Machine} {env : Env} {below : List Mode} {mode : Mode} {c : Char} {rest : List Char}

/-- The error of a text that ends too early. -/
abbrev AtEnd (e : SyntaxError) : Prop := e.fault = .unexpectedEnd

@[simp] theorem spares_fail {fault : SyntaxFault} :
    Spares AtEnd (m.fail fault : Except SyntaxError Machine) ↔ fault ≠ .unexpectedEnd := spares_error

theorem spares_attempt {f : Assembly → Except SyntaxFault Assembly} (hf : ∀ a, Spares IsEnd (f a)) (m : Machine) :
    Spares AtEnd (m.attempt f) := by
  unfold attempt
  split
  · exact spares_ok _
  · next fault hfault => exact spares_fail.2 (hf _ _ hfault)

theorem spares_openCall (m : Machine) (name : String) : Spares AtEnd (m.openCall env name c rest) := by
  unfold openCall
  split <;> simp

theorem spares_endNumber (m : Machine) (below : List Mode) (read : List Char) :
    Spares AtEnd (m.endNumber env below read) := by
  unfold endNumber
  split <;> simp

theorem spares_endJson (m : Machine) (below : List Mode) (read : List Char) :
    Spares AtEnd (m.endJson env below read) := by
  unfold endJson
  split <;> simp

theorem spares_endOperandName (m : Machine) (below : List Mode) (name : String) :
    Spares AtEnd (m.endOperandName below name) := by
  unfold endOperandName
  split <;> simp

theorem spares_endPattern (m : Machine) (below : List Mode) (read : List Char) (fold : Bool) :
    Spares AtEnd (m.endPattern env below read fold) := by
  unfold endPattern
  split <;> simp

theorem spares_readBound (m : Machine) (read : List Char) : Spares AtEnd (m.readBound read) := by
  unfold readBound
  split
  · exact spares_ok _
  · split
    · exact spares_ok _
    · exact spares_error.2 nofun

theorem spares_boundSelector (m : Machine) (i : Option Int) (bound : Bound) :
    Spares AtEnd (m.boundSelector i bound) := by
  unfold boundSelector
  split
  · split
    · exact spares_ok _
    · exact spares_error.2 nofun
  · exact spares_ok _
  · exact spares_ite.2 ⟨fun _ => spares_error.2 nofun, fun _ => spares_ok _⟩

theorem spares_readBoundEnd {bound : Bound} {read : List Char} :
    Spares AtEnd (m.readBoundEnd below bound read (c :: rest)) := by
  have hbound := spares_readBound m read
  have hselector := fun i => (spares_boundSelector m i bound).map fun s => (m.emitSelector s).goto below
  unfold readBoundEnd
  refine spares_ite.2 ⟨fun _ => spares_ok _, fun _ => spares_ite.2 ⟨fun _ => hbound.bind hselector, fun _ => ?_⟩⟩
  refine spares_ite.2 ⟨fun _ => ?_, fun _ => by simp⟩
  cases bound with
  | first | stop => exact hbound.map _
  | step => simp

theorem spares_readExpressionEnd {close : Assembly → Except SyntaxFault Assembly} (hc : ∀ a, Spares IsEnd (close a)) :
    Spares AtEnd (m.readExpressionEnd below close (c :: rest)) := by
  simpa [readExpressionEnd] using fun _ _ => (spares_attempt hc m).map _

theorem spares_readOperator : Spares AtEnd (m.readOperator below (c :: rest)) := by
  have hgroup := spares_attempt spares_closeGroup (m.past c rest)
  unfold readOperator
  cases ho : operatorStart? c with
  | none => simp [hgroup, ho]
  | some o => cases o <;> simp [hgroup, ho]

/-- Before a character no reader finds the end of the text. -/
theorem stepIn_spares (hr : m.rest = c :: rest) : Spares AtEnd (m.stepIn env below mode) := by
  cases mode <;> rw [stepIn, hr]
  case start => simp [readStart]
  case bareName use read => simp [readBareName]
  case queryCall name => simpa [readQueryCall] using fun _ _ => (spares_openCall m name).map _
  case path => simp [readPath]
  case dot => simp [readDot]
  case descent => simp [readDescent]
  case dotName => simp [readDotName]
  case quoted quote use read => simp [readQuoted]
  case escape quote use read e =>
    simp only [readEscape]
    cases e.next Text.nameEscape? c with
    | lone => cases e <;> simp
    | _ => simp
  case element => simp [readElement]
  case elementEnd => simpa [readElementEnd] using fun _ _ _ => (spares_attempt spares_closeUnion _).map _
  case integer bound => simp [readInteger]
  case digits bound read => simp [readDigits]
  case boundEnd bound read => exact spares_readBoundEnd
  case filterEnd | computedEnd => exact spares_readExpressionEnd (spares_closeExpression _ _)
  case operand => simp [readOperand]
  case operator => exact spares_readOperator
  case number read => simp [readNumber, spares_endNumber]
  case json depth read => simp [readJson, spares_endJson]
  case jsonString depth read => simp [readJsonString]
  case jsonEscape depth read => simp [readJsonEscape]
  case operandName name =>
    simpa [readOperandName, spares_endOperandName] using fun _ _ => (spares_openCall m name).map _
  case arguments =>
    have hargument := (spares_attempt spares_closeArgument (m.past c rest)).map
      (·.goto (.operand :: .operator :: .arguments :: below))
    have hcall := (spares_attempt spares_closeCall (m.past c rest)).map (·.goto below)
    simp [readArguments, hargument, hcall]
  case firstArgument => simp [readFirstArgument]
  case less | greater => simp [readInequality]
  case equal => simp [readEqual]
  case notEqual => simp [readNotEqual]
  case or | and => simp [readHalf]
  case patternStart => simp [readPatternStart]
  case pattern read => simp [readPattern]
  case patternEscape read => simp [readPatternEscape]
  case patternEnd read => simp [readPatternEnd, spares_endPattern]

theorem unexpectedEnd_of_step {e : SyntaxError} (h : m.step env = .error e) (he : e.fault = .unexpectedEnd) :
    m.rest = [] := by
  cases hm : m.modes with
  | nil =>
    rw [step_nil hm] at h
    cases h
    cases he
  | cons mode below =>
    rw [step_cons hm] at h
    cases hr : m.rest with
    | nil => rfl
    | cons c rest => exact absurd he (stepIn_spares hr e h)

/-- The machine before another text, at the same place. -/
def facing (m : Machine) (text : List Char) : Machine := m.movedTo text m.position

theorem position_skip_facing {text : List Char} (ht : text.head? = m.rest.head?) (past : Bool) :
    ((m.facing text).skip text past).position = (m.skip m.rest past).position := by
  cases past with
  | false => rfl
  | true =>
    cases hr : m.rest with
    | nil =>
      rw [hr, List.head?_nil, List.head?_eq_none_iff] at ht
      subst ht
      rfl
    | cons c rest =>
      obtain ⟨later, rfl⟩ : ∃ later, text = c :: later := by
        rw [hr] at ht
        exact ⟨_, List.eq_cons_of_mem_head? ht⟩
      rfl

/-- A step that fails does so before every text with this first character. -/
theorem step_facing_error {e : SyntaxError} {text : List Char} (h : m.step env = .error e)
    (ht : text.head? = m.rest.head?) : (m.facing text).step env = .error e := by
  by_cases hm : m.modes = []
  · rw [step_nil hm] at h
    cases h
    exact step_nil hm
  have hsees : (m.facing text).SeesAs m := ⟨rfl, ht, rfl⟩
  obtain ⟨-, -, -, v, -, hx, hy⟩ := @step_move m _ env hsees hm
  have hposition := position_skip_facing ht
  rw [hx] at h
  have hy : (m.facing text).step env = (m.facing text).makes text v := hy
  rw [hy]
  cases v with
  | refuse past fault =>
    cases h
    rw [makes, fail, hposition]
  | take past act modes =>
    have hperform : act.perform (m.facing text).roots (m.facing text).assembly = act.perform m.roots m.assembly := rfl
    rw [makes] at h ⊢
    rw [hperform]
    split at h
    · cases h
    · cases h
      rw [fail, hposition]

/-- An error is before the next character, which shows it, or behind it. -/
theorem position_of_step_error {e : SyntaxError} (h : m.step env = .error e) :
    ∃ before rest, m.rest = before ++ rest ∧ e.position = m.position.afterAll before := by
  by_cases hm : m.modes = []
  · rw [step_nil hm] at h
    cases h
    exact ⟨[], m.rest, rfl, rfl⟩
  have hskip : ∀ past, ∃ before rest, m.rest = before ++ rest ∧
      (m.skip m.rest past).position = m.position.afterAll before := by
    intro past
    cases past with
    | false => exact ⟨[], m.rest, rfl, rfl⟩
    | true =>
      cases hr : m.rest with
      | nil => exact ⟨[], [], rfl, rfl⟩
      | cons c rest => exact ⟨[c], rest, rfl, rfl⟩
  obtain ⟨-, -, -, v, -, hx, -⟩ := @step_move m m env (.refl m) hm
  rw [hx] at h
  cases v with
  | refuse past fault =>
    cases h
    exact hskip past
  | take past act modes =>
    rw [makes] at h
    split at h
    · cases h
    · cases h
      exact hskip past

/-- A step that succeeds does so before every text with this first character, and reads it or leaves it there. -/
theorem step_facing_ok {text : List Char} (h : m.step env = .ok n) (ht : text.head? = m.rest.head?) :
    ∃ past, n.rest = (m.skip m.rest past).rest ∧ n.position = (m.skip m.rest past).position ∧
      (m.facing text).step env = .ok (n.facing ((m.facing text).skip text past).rest) := by
  have hm : m.modes ≠ [] := modes_ne_nil_of_step h
  have hsees : (m.facing text).SeesAs m := ⟨rfl, ht, rfl⟩
  obtain ⟨-, -, -, v, -, hx, hy⟩ := @step_move m _ env hsees hm
  have hy : (m.facing text).step env = (m.facing text).makes text v := hy
  rw [hx] at h
  cases v with
  | refuse => cases h
  | take past act modes =>
    have hperform : act.perform (m.facing text).roots (m.facing text).assembly = act.perform m.roots m.assembly := rfl
    have hposition := position_skip_facing ht past
    rw [makes] at h
    split at h
    · next a ha =>
      cases h
      refine ⟨past, rfl, rfl, ?_⟩
      rw [hy, makes, hperform, ha]
      have hsame : (⟨((m.facing text).skip text past).rest, ((m.facing text).skip text past).position, modes, a,
          m.roots + act.roots⟩ : Machine) =
          ⟨((m.facing text).skip text past).rest, (m.skip m.rest past).position, modes, a, m.roots + act.roots⟩ := by
        rw [hposition]
      exact congrArg Except.ok hsame
    · cases h

/-- A step that leaves the next character. -/
theorem step_before {text : List Char} (h : m.step env = .ok n) (hr : n.rest = m.rest)
    (ht : text.head? = m.rest.head?) :
    n.position = m.position ∧ (m.facing text).step env = .ok (n.facing text) := by
  obtain ⟨past, hrest, hposition, hstep⟩ := step_facing_ok h ht
  cases past with
  | false => exact ⟨hposition, hstep⟩
  | true =>
    cases hm : m.rest with
    | nil =>
      rw [hm, List.head?_nil, List.head?_eq_none_iff] at ht
      subst ht
      rw [hm] at hposition
      exact ⟨hposition, hstep⟩
    | cons c rest =>
      rw [hr, hm] at hrest
      exact absurd hrest (List.cons_ne_self c rest)

/-- A step that reads it. -/
theorem step_behind (h : m.step env = .ok n) (hr : m.rest = c :: n.rest) (text : List Char) :
    n.position = m.position.after c ∧ (m.facing (c :: text)).step env = .ok (n.facing text) := by
  have ht : (c :: text).head? = m.rest.head? := by rw [hr]; rfl
  obtain ⟨past, hrest, hposition, hstep⟩ := step_facing_ok h ht
  cases past with
  | false => exact absurd ((hr.symm.trans hrest.symm)) (List.cons_ne_self c n.rest)
  | true =>
    rw [hr] at hposition
    exact ⟨hposition, hstep⟩

/-- A run that fails reads what stands before its error, and looks at the next character at most. -/
theorem run_error_placed {e : SyntaxError} (h : m.run env = .error e) : ∃ before rest, m.rest = before ++ rest ∧
    e.position = m.position.afterAll before ∧ (e.fault = .unexpectedEnd → rest = []) ∧
      ∀ c later, rest = c :: later → ∀ other, (m.facing (before ++ c :: other)).run env = .error e := by
  induction m using Machine.run.induct env with
  | case1 m hf =>
    obtain ⟨hrest, -⟩ := isFinished_iff.1 hf
    rw [Machine.run, if_pos hf] at h
    obtain ⟨fault, -, rfl⟩ := mapError_eq_error h
    exact ⟨[], [], hrest, rfl, fun _ => rfl, fun c later hlater => absurd hlater.symm (List.cons_ne_nil c later)⟩
  | case2 m hf e' he =>
    obtain rfl : e' = e := by
      rw [run_of_error (by simpa using hf) he] at h
      exact Except.error.inj h
    obtain ⟨before, rest, hrest, hposition⟩ := position_of_step_error he
    refine ⟨before, rest, hrest, hposition, fun hfault => ?_, fun c later hlater other => ?_⟩
    · have hnil := unexpectedEnd_of_step he hfault
      rw [hrest] at hnil
      exact (List.append_eq_nil_iff.1 hnil).2
    · refine run_of_error ?_ (step_facing_error he ?_)
      · simp [isFinished, facing, movedTo]
      · rw [hrest, hlater]
        cases before <;> rfl
  | case3 m hf k hk ih =>
    rw [run_of_step hk] at h
    obtain ⟨before, rest, hrest, hposition, hend, hother⟩ := ih h
    obtain hr | ⟨d, hr⟩ := rest_of_step hk
    · have hstay := (step_before hk hr rfl).1
      refine ⟨before, rest, hr ▸ hrest, hstay ▸ hposition, hend, fun c later hlater other => ?_⟩
      have hhead : (before ++ c :: other).head? = m.rest.head? := by
        rw [← hr, hrest, hlater]
        cases before <;> rfl
      rw [run_of_step (step_before hk hr hhead).2]
      exact hother c later hlater other
    · refine ⟨d :: before, rest, by rw [hr, hrest]; rfl, ?_, hend, fun c later hlater other => ?_⟩
      · rw [hposition, (step_behind hk hr []).1]
        rfl
      · rw [List.cons_append, run_of_step (step_behind hk hr _).2]
        exact hother c later hlater other

end Machine

end PathQuery
