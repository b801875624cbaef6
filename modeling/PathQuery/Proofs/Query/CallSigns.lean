import PathQuery.Proofs.Query.ArgumentTexts

namespace PathQuery

open Mode (Stacked)

/-- A mode that neither holds the name of a call nor stands behind an argument. -/
def Mode.isPlain : Mode → Bool
  | bareName .query _ | bareName .operand _ | queryCall _ | operandName _ | arguments => false
  | _ => true

/-- A mode that holds a whole name. -/
inductive Mode.Names (name : String) : Mode → Prop
  | query : Names name (.queryCall name)
  | operand : Names name (.operandName name)

/-- Some modes with plain ones on top. -/
inductive PlainAbove (below : List Mode) : List Mode → Prop
  | none : PlainAbove below below
  | more {mode : Mode} {modes : List Mode} (hm : mode.isPlain = true) :
      PlainAbove below modes → PlainAbove below (mode :: modes)

/-- Where a mode ends no name begins or waits. -/
theorem Mode.plain_of_below {mode : Mode} {below : List Mode} (hs : Stacked (mode :: below))
    (hc : Role.Chained (Mode.roles (mode :: below))) :
    ∀ next ∈ below.head?, next.isPlain = true ∨ next = .arguments := by
  cases below with
  | nil => nofun
  | cons next below =>
    rintro _ ⟨⟩
    have hlexing : next.lexing [] = ⟨.none, mode.leaves, []⟩ := hs.2.1 []
    have hgives : mode.role.leaves.gives next.role.needs = true := (List.isChain_cons_cons.1 hc).1
    -- only the first half of an operator leaves an operand to be read, which no name begins there
    have hfresh : next.role.needs = .fresh → (next.lexing []).due = .operand := by
      intro hneeds
      rw [hneeds] at hgives
      have hleaves : mode.leaves = .operand := by
        cases mode with
        | bareName use read => cases use <;> cases hgives
        | quoted quote use read => cases use <;> cases hgives
        | escape quote use read e => cases use <;> cases hgives
        | or | and => rfl
        | _ => cases hgives
      rw [hlexing, hleaves]
    cases next with
    | queryCall | operandName => cases hfresh rfl
    | bareName use read => cases hlexing
    | arguments => exact .inr rfl
    | _ => exact .inl rfl

theorem PlainAbove.head {below modes : List Mode} (h : PlainAbove below modes)
    (hb : ∀ mode ∈ below.head?, mode.isPlain = true ∨ mode = .arguments) :
    ∀ mode ∈ modes.head?, mode.isPlain = true ∨ mode = .arguments := by
  cases h with
  | none => exact hb
  | more hm => rintro _ ⟨⟩; exact .inl hm

theorem PlainAbove.eq_append {below modes : List Mode} (h : PlainAbove below modes) :
    ∃ top, modes = top ++ below ∧ .arguments ∉ top := by
  induction h with
  | none => exact ⟨[], rfl, by simp⟩
  | more hm _ ih =>
    obtain ⟨top, rfl, ht⟩ := ih
    refine ⟨_ :: top, rfl, ?_⟩
    rintro (_ | ⟨_, ha⟩)
    · cases hm
    · exact ht ha

namespace Machine

variable {m n : Machine} {env : Env} {below modes : List Mode} {mode : Mode} {c : Char} {rest : List Char}

/-- A result that leaves plain modes above some others. -/
def LeavesPlain (below : List Mode) (r : Except SyntaxError Machine) : Prop := ∀ n, r = .ok n → PlainAbove below n.modes

theorem leavesPlain_fail (fault : SyntaxFault) : LeavesPlain below (m.fail fault) := nofun

theorem leavesPlain_ok (h : PlainAbove below m.modes) : LeavesPlain below (.ok m) := by
  rintro n ⟨⟩
  exact h

theorem leavesPlain_ite {p : Prop} [Decidable p] {x y : Except SyntaxError Machine} (hx : LeavesPlain below x)
    (hy : LeavesPlain below y) : LeavesPlain below (if p then x else y) := by
  split
  · exact hx
  · exact hy

theorem leavesPlain_attempt {f : Assembly → Except SyntaxFault Assembly} (h : PlainAbove below modes) :
    LeavesPlain below ((m.attempt f).map (·.goto modes)) := by
  intro n hn
  obtain ⟨a, -, rfl⟩ := attempt_goto_ok hn
  exact h

theorem leavesPlain_past (hm : m.modes = mode :: below) (hp : mode.isPlain = true) :
    LeavesPlain below (.ok (m.past c rest)) := leavesPlain_ok (hm ▸ .more hp .none)

section readers

variable {read text : List Char}

theorem readQuoted_plain (quote : Char) (use : QuotedUse) :
    LeavesPlain below (m.readQuoted below quote use read text) := by
  cases text with
  | nil => exact leavesPlain_fail _
  | cons c rest =>
    refine leavesPlain_ite ?_ (leavesPlain_ite (leavesPlain_ok (.more rfl .none)) (leavesPlain_ok (.more rfl .none)))
    cases use <;> exact leavesPlain_ok .none

theorem readEscape_plain (quote : Char) (use : QuotedUse) (e : Text.Escape) :
    LeavesPlain below (m.readEscape below quote use read e text) := by
  cases text with
  | nil => exact leavesPlain_fail _
  | cons c rest =>
    simp only [readEscape]
    cases e.next Text.nameEscape? c with
    | lone => cases e <;> exact leavesPlain_fail _
    | unknown | stray => exact leavesPlain_fail _
    | _ => exact leavesPlain_ok (.more rfl .none)

theorem readBoundEnd_plain {bound : Bound} (hm : m.modes = .boundEnd bound read :: below) :
    LeavesPlain below (m.readBoundEnd below bound read text) := by
  cases text with
  | nil => exact leavesPlain_fail _
  | cons c rest =>
    refine leavesPlain_ite (leavesPlain_past hm rfl) (leavesPlain_ite ?_ (leavesPlain_ite ?_ (leavesPlain_fail _)))
    · obtain ⟨i, hi⟩ | hi := readBound_cases read
      · obtain ⟨s, -, hs⟩ | ⟨fault, -, hs⟩ := boundSelector_cases i bound <;> rw [hi, Except.bind, hs]
        · exact leavesPlain_ok .none
        · exact leavesPlain_fail _
      · rw [hi]
        exact leavesPlain_fail _
    · cases bound with
      | step start stop => exact leavesPlain_fail _
      | _ =>
        obtain ⟨i, hi⟩ | hi := readBound_cases read <;> rw [hi]
        · exact leavesPlain_ok (.more rfl .none)
        · exact leavesPlain_fail _

theorem readOperator_plain (hm : m.modes = .operator :: below) : LeavesPlain below (m.readOperator below text) := by
  have hstay : PlainAbove below (.operator :: below) := .more rfl .none
  cases text with
  | nil => exact leavesPlain_fail _
  | cons c rest =>
    refine leavesPlain_ite (leavesPlain_past hm rfl) ?_
    refine leavesPlain_ite (leavesPlain_ok (.more rfl hstay)) ?_
    refine leavesPlain_ite (leavesPlain_ok (.more rfl (.more rfl hstay))) ?_
    refine leavesPlain_ite (leavesPlain_ite ?_ (leavesPlain_ite (leavesPlain_ok .none) (leavesPlain_fail _))) ?_
    · intro n hn
      rw [attempt_modes hn]
      exact hm ▸ hstay
    refine leavesPlain_ite (leavesPlain_ok .none) ?_
    split
    · exact leavesPlain_ok (.more rfl hstay)
    · next modes ho =>
      unfold operatorStart? at ho
      split at ho <;> cases ho
      all_goals first | exact leavesPlain_ok (.more rfl hstay) | exact leavesPlain_ok (.more rfl (.more rfl hstay))
    · exact leavesPlain_fail _

theorem readNumber_plain : LeavesPlain below (m.readNumber env below read text) := by
  have hend : LeavesPlain below (m.endNumber env below read) := by
    rw [endNumber]
    cases env.number? (String.ofList read.reverse) with
    | none => exact leavesPlain_fail _
    | some v => exact leavesPlain_ok .none
  cases text with
  | nil => exact hend
  | cons c rest => exact leavesPlain_ite (leavesPlain_ok (.more rfl .none)) hend

theorem readJson_plain (depth : Nat) : LeavesPlain below (m.readJson env below depth read text) := by
  cases text with
  | nil => exact leavesPlain_fail _
  | cons c rest =>
    refine leavesPlain_ite (leavesPlain_ok (.more rfl .none)) (leavesPlain_ite (leavesPlain_ite ?_ ?_) ?_)
    · rw [endJson]
      cases env.json? (String.ofList (c :: read).reverse) with
      | none => exact leavesPlain_fail _
      | some v => exact leavesPlain_ok .none
    · exact leavesPlain_ok (.more rfl .none)
    · exact leavesPlain_ite (leavesPlain_ok (.more rfl .none)) (leavesPlain_ok (.more rfl .none))

theorem readPatternEnd_plain : LeavesPlain below (m.readPatternEnd env below read text) := by
  have hend : ∀ (k : Machine) (fold : Bool), LeavesPlain below (k.endPattern env below read fold) := by
    intro k fold
    rw [endPattern]
    cases env.pattern (String.ofList read.reverse) fold with
    | error message => exact leavesPlain_fail _
    | ok p => exact leavesPlain_ok .none
  cases text with
  | nil => exact hend _ _
  | cons c rest => exact leavesPlain_ite (hend _ _) (hend _ _)

end readers

/-- A plain mode stays, gives way to plain modes, or ends; only a start or an operand can begin with a name. -/
theorem stepIn_plain (hm : m.modes = mode :: below) (hp : mode.isPlain = true) (hs : mode ≠ .start)
    (ho : mode ≠ .operand) : LeavesPlain below (m.stepIn env below mode) := by
  cases mode with
  | start => exact absurd rfl hs
  | operand => exact absurd rfl ho
  | queryCall | operandName | arguments => cases hp
  | quoted quote use read => exact readQuoted_plain quote use
  | escape quote use read e => exact readEscape_plain quote use e
  | boundEnd bound read => exact readBoundEnd_plain hm
  | operator => exact readOperator_plain hm
  | number read => exact readNumber_plain
  | json depth read => exact readJson_plain depth
  | patternEnd read => exact readPatternEnd_plain
  | bareName use read =>
    cases use with
    | member =>
      rw [stepIn]
      cases m.rest with
      | nil => exact leavesPlain_ok .none
      | cons c rest => exact leavesPlain_ite (leavesPlain_ok .none) (leavesPlain_ok (.more rfl .none))
    | _ => cases hp
  | _ =>
    -- only what stands next decides here
    rw [stepIn]
    cases m.rest with
    | nil => first | exact leavesPlain_fail _ | exact leavesPlain_ok (.more rfl .none)
    | cons c rest =>
      repeat' refine leavesPlain_ite ?_ ?_
      all_goals
        first
        | exact leavesPlain_fail _
        | exact leavesPlain_attempt .none
        | exact leavesPlain_past hm rfl
        | exact leavesPlain_ok .none
        | exact leavesPlain_ok (.more rfl .none)
        | exact leavesPlain_ok (.more rfl (.more rfl .none))
        | exact leavesPlain_ok (.more rfl (.more rfl (.more rfl .none)))

/-- What a step from a mode that is not behind an argument does to the name of a call. -/
inductive NameStep (env : Env) (m n : Machine) (below : List Mode) : Mode → Prop
  | plain {mode : Mode} (hm : PlainAbove below n.modes)
      (ho : ∀ name, mode.Names name → m.rest.head? ≠ some '(') : NameStep env m n below mode
  | begins {mode : Mode} {use : BareUse} {c : Char} {rest : List Char} (hm : n.modes = .bareName use [] :: below)
      (hr : m.rest = c :: rest) (hn : n.rest = m.rest) (hc : isDelimiter c = false) (ht : m.lexing.token = .none) :
      NameStep env m n below mode
  | grows {use : BareUse} {read : List Char} {c : Char} (hu : use ≠ .member)
      (hm : n.modes = .bareName use (c :: read) :: below) (hr : m.rest = c :: n.rest) (hc : isDelimiter c = false) :
      NameStep env m n below (.bareName use read)
  | ends {use : BareUse} {read : List Char} {mode : Mode} (hu : use ≠ .member)
      (hn : mode.Names (String.ofList read.reverse)) (hm : n.modes = mode :: below) (hr : n.rest = m.rest)
      (hc : ∀ c ∈ m.rest.head?, isDelimiter c = true) : NameStep env m n below (.bareName use read)
  | waits {mode : Mode} {name : String} {c : Char} (hn : mode.Names name) (hm : n.modes = mode :: below)
      (hr : m.rest = c :: n.rest) (hc : Text.isSpace c = true) : NameStep env m n below mode
  | opens {mode : Mode} {name : String} {g : Function} {around : List Mode} (hn : mode.Names name)
      (hr : m.rest = '(' :: n.rest) (hg : Function.find? name env.functions = some g)
      (hm : n.modes = .firstArgument :: .arguments :: (around ++ below)) (ha : around = [] ∨ around = [.path])
      (hb : n.assembly = (m.assembly.push .current).openScope (.call g)) (hk : n.roots = m.roots) :
      NameStep env m n below mode

theorem nameStep_of_plain {k : Machine} (h : (.ok k : Except SyntaxError Machine) = .ok n)
    (hk : PlainAbove below k.modes) (hm : mode.isPlain = true) : NameStep env m n below mode := by
  cases h
  refine .plain hk ?_
  rintro name ⟨⟩ <;> cases hm

theorem readStart_name (hm : m.modes = .start :: below) (h : m.readStart below m.rest = .ok n) :
    NameStep env m n below .start := by
  cases hr : m.rest with
  | nil =>
    rw [hr] at h
    cases h
  | cons c rest =>
    rw [hr, readStart] at h
    split_ifs at h with hspace hroot hname
    · exact nameStep_of_plain h (hm ▸ .more rfl .none) rfl
    · exact nameStep_of_plain h (.more rfl .none) rfl
    · cases h
      exact .begins rfl hr rfl (Syntax.isDelimiter_of_isNameStart hname) (by rw [lexing, hm]; rfl)
    · cases h

theorem readOperand_name (hm : m.modes = .operand :: below) (h : m.readOperand below m.rest = .ok n) :
    NameStep env m n below .operand := by
  cases hr : m.rest with
  | nil =>
    rw [hr] at h
    cases h
  | cons c rest =>
    rw [hr, readOperand] at h
    have hstay : PlainAbove below m.modes := hm ▸ .more rfl .none
    split_ifs at h with hspace hroot hcurrent hgroup hquote hnot hminus hdigit hjson hname
    · exact nameStep_of_plain h hstay rfl
    · exact nameStep_of_plain h .none rfl
    · exact nameStep_of_plain h .none rfl
    · exact nameStep_of_plain h hstay rfl
    · exact nameStep_of_plain h (.more rfl .none) rfl
    · exact nameStep_of_plain h hstay rfl
    · exact nameStep_of_plain h hstay rfl
    · exact nameStep_of_plain h (.more rfl .none) rfl
    · exact nameStep_of_plain h (.more rfl .none) rfl
    · cases h
      exact .begins rfl hr rfl (Syntax.isDelimiter_of_isNameStart hname) (by rw [lexing, hm]; rfl)
    · cases h

theorem readBareName_name {use : BareUse} {read : List Char} (hu : use ≠ .member)
    (h : m.readBareName below use read m.rest = .ok n) : NameStep env m n below (.bareName use read) := by
  have hend : ∀ k, .ok (m.endName below use read) = (.ok k : Except SyntaxError Machine) →
      (∀ c ∈ m.rest.head?, isDelimiter c = true) → NameStep env m k below (.bareName use read) := by
    rintro k ⟨⟩ hc
    cases use with
    | member => exact absurd rfl hu
    | query => exact .ends hu .query rfl rfl hc
    | operand => exact .ends hu .operand rfl rfl hc
  cases hr : m.rest with
  | nil =>
    rw [hr] at h
    exact hend n h (by simp [hr])
  | cons c rest =>
    rw [hr, readBareName] at h
    split_ifs at h with hc
    · exact hend n h (by simpa [hr] using hc)
    · cases h
      exact .grows hu rfl hr (by simpa using hc)

theorem openCall_name {name : String} {around : List Mode} (hn : mode.Names name) (hr : m.rest = '(' :: rest)
    (ha : around = [] ∨ around = [.path])
    (h : (m.openCall env name '(' rest).map (·.goto (.firstArgument :: .arguments :: (around ++ below))) = .ok n) :
    NameStep env m n below mode := by
  unfold openCall at h
  cases hg : Function.find? name env.functions with
  | none =>
    rw [hg] at h
    cases h
  | some g =>
    rw [hg] at h
    cases h
    exact .opens hn hr hg rfl ha rfl rfl

theorem readQueryCall_name {name : String} (hm : m.modes = .queryCall name :: below)
    (h : m.readQueryCall env below name m.rest = .ok n) : NameStep env m n below (.queryCall name) := by
  cases hr : m.rest with
  | nil =>
    rw [hr] at h
    cases h
  | cons c rest =>
    rw [hr, readQueryCall] at h
    split_ifs at h with hspace hopen
    · cases h
      exact .waits .query hm hr hspace
    · subst hopen
      exact openCall_name .query hr (.inr rfl) h
    · cases h

theorem readOperandName_name {name : String} (hm : m.modes = .operandName name :: below)
    (h : m.readOperandName env below name m.rest = .ok n) : NameStep env m n below (.operandName name) := by
  have hend : LeavesPlain below (m.endOperandName below name) := by
    rw [endOperandName]
    cases keyword? name with
    | none => exact leavesPlain_fail _
    | some v => exact leavesPlain_ok .none
  cases hr : m.rest with
  | nil =>
    rw [hr] at h
    exact .plain (hend n h) (by simp [hr])
  | cons c rest =>
    rw [hr, readOperandName] at h
    split_ifs at h with hspace hopen
    · cases h
      exact .waits .operand hm hr hspace
    · subst hopen
      exact openCall_name .operand hr (.inl rfl) h
    · exact .plain (hend n h) (by simp [hr, hopen])

/-- A name begins, grows, ends and waits for the parenthesis of its call; all other steps are plain. -/
theorem step_name (hm : m.modes = mode :: below) (hmode : mode ≠ .arguments) (h : m.step env = .ok n) :
    NameStep env m n below mode := by
  rw [step_cons hm] at h
  by_cases hp : mode.isPlain = true ∧ mode ≠ .start ∧ mode ≠ .operand
  · refine .plain (stepIn_plain hm hp.1 hp.2.1 hp.2.2 n h) ?_
    rintro name ⟨⟩ <;> cases hp.1
  · cases mode with
    | start => exact readStart_name hm h
    | operand => exact readOperand_name hm h
    | queryCall name => exact readQueryCall_name hm h
    | operandName name => exact readOperandName_name hm h
    | arguments => exact absurd rfl hmode
    | bareName use read =>
      cases use with
      | member => exact absurd ⟨rfl, nofun, nofun⟩ hp
      | _ => exact readBareName_name nofun h
    | _ => exact absurd ⟨rfl, nofun, nofun⟩ hp

/-- Outside of tokens a parenthesis is read where an operand is due or opens a call, and a comma behind an argument or
an element. -/
theorem step_sign (hc : c = '(' ∨ c = ',') (hm : m.modes = mode :: below) (hr : m.rest = c :: rest)
    (h : m.step env = .ok n) (hn : n.rest = rest) : m.lexing.token.continues c = true ∨
      c = '(' ∧ (mode = .operand ∨ ∃ name, mode.Names name) ∨
      c = ',' ∧ (mode = .arguments ∨ n.modes = .element :: .elementEnd :: below) := by
  have hkept : ∀ {k : Machine}, k.rest = c :: rest → (.ok k : Except SyntaxError Machine) ≠ .ok n := by
    rintro k hk ⟨⟩
    have hlength := congrArg List.length (hk.symm.trans hn)
    simp at hlength
  rw [step_cons hm, stepIn.eq_def, hr] at h
  rw [lexing, hm]
  cases mode with
  | queryCall name =>
    obtain rfl | rfl := hc
    · exact .inr (.inl ⟨rfl, .inr ⟨name, .query⟩⟩)
    · cases h
  | operandName name =>
    obtain rfl | rfl := hc
    · exact .inr (.inl ⟨rfl, .inr ⟨name, .operand⟩⟩)
    · replace h : m.endOperandName below name = .ok n := h
      rw [endOperandName] at h
      split at h
      · exact absurd h (hkept hr)
      · cases h
  | operand =>
    obtain rfl | rfl := hc
    · exact .inr (.inl ⟨rfl, .inl rfl⟩)
    · cases h
  | arguments =>
    obtain rfl | rfl := hc
    · cases h
    · exact .inr (.inr ⟨rfl, .inl rfl⟩)
  | elementEnd =>
    obtain rfl | rfl := hc
    · cases h
    · cases h
      exact .inr (.inr ⟨rfl, .inr rfl⟩)
  | quoted quote use read => cases use <;> exact .inl rfl
  | escape quote use read e => cases use <;> cases e <;> exact .inl rfl
  | json | jsonString | jsonEscape | pattern | patternEscape => exact .inl rfl
  | bareName use read => obtain rfl | rfl := hc <;> cases use <;> exact absurd h (hkept hr)
  | number read =>
    replace h : m.endNumber env below read = .ok n := by obtain rfl | rfl := hc <;> exact h
    rw [endNumber] at h
    split at h
    · exact absurd h (hkept hr)
    · cases h
  | patternEnd read =>
    replace h : m.endPattern env below read false = .ok n := by obtain rfl | rfl := hc <;> exact h
    rw [endPattern] at h
    split at h
    · exact absurd h (hkept hr)
    · cases h
  | boundEnd bound read =>
    obtain rfl | rfl := hc
    · cases h
    · replace h : ((m.readBound read).bind fun i => (m.boundSelector i bound).map fun s =>
          (m.emitSelector s).goto below) = .ok n := h
      obtain ⟨i, -, h⟩ := bind_eq_ok h
      obtain ⟨s, -, he⟩ := map_eq_ok h
      exact absurd (congrArg Except.ok he) (hkept hr)
  | filterEnd | computedEnd =>
    obtain rfl | rfl := hc
    · cases h
    · obtain ⟨a, -, he⟩ := attempt_goto_ok h
      exact absurd (congrArg Except.ok he.symm) (hkept hr)
  | _ =>
    obtain rfl | rfl := hc
    all_goals first | cases h; done | exact absurd h (hkept hr)

end Machine

end PathQuery
