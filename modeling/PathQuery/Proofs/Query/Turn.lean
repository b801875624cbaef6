import PathQuery.Query.Answer

namespace PathQuery

/-- What a mode is there for, without the texts that are partly read in it. -/
inductive Role
  | start
  | queryCall
  | path
  | selector
  | element
  | elementEnd
  | bound
  | filterEnd
  | computedEnd
  | operand
  | operator
  | comparator
  | half
  | firstArgument
  | arguments

def Mode.role : Mode → Role
  | start => .start
  | bareName .query _ | queryCall _ => .queryCall
  | path => .path
  | bareName .member _ | dot | descent | dotName | quoted _ .member _ | escape _ .member _ _ => .selector
  | element => .element
  | elementEnd => .elementEnd
  | integer _ | digits _ _ | boundEnd _ _ => .bound
  | filterEnd => .filterEnd
  | computedEnd => .computedEnd
  | bareName .operand _ | quoted _ .literal _ | escape _ .literal _ _ | operand | number _ | json _ _ | jsonString _ _
  | jsonEscape _ _ | operandName _ => .operand
  | operator => .operator
  | less | greater | equal | notEqual | patternStart | pattern _ | patternEscape _ | patternEnd _ => .comparator
  | or | and => .half
  | firstArgument => .firstArgument
  | arguments => .arguments

def Mode.roles (modes : List Mode) : List Role := modes.map role

/-- What a step does to the assembly. -/
inductive Act
  | skip
  | root
  | current
  | selector (s : Selector)
  | literal (v : Value)
  | operator (op : Operator)
  | openGroup
  | closeGroup
  | openUnion
  | separator
  | closeUnion
  | openFilter
  | closeFilter
  | openComputed
  | closeComputed
  | openCall (f : Function)
  | closeArgument
  | closeCall

/-- The effect of an act, given the number of the next occurrence of the root. -/
def Act.perform (occurrence : Nat) (a : Assembly) : Act → Except SyntaxFault Assembly
  | skip => .ok a
  | root => .ok ((a.push .root).pushSelector (.root occurrence))
  | current => .ok ((a.push .current).pushSelector .current)
  | selector s => .ok (a.pushSelector s)
  | literal v => .ok (a.push (.literal v))
  | operator op => .ok (a.pushOperator op)
  | openGroup => .ok a.openGroup
  | closeGroup => a.closeGroup
  | openUnion => .ok (a.pushMark .union)
  | separator => .ok (a.pushMark .separator)
  | closeUnion => a.closeUnion
  | openFilter => .ok (a.openScope .filter)
  | closeFilter => a.closeFilter
  | openComputed => .ok (a.openScope .computed)
  | closeComputed => a.closeComputed
  | openCall f => .ok ((a.push .current).openScope (.call f))
  | closeArgument => a.closeArgument
  | closeCall => a.closeCall

/-- How many occurrences of the root an act uses up. -/
def Act.roots : Act → Nat
  | root => 1
  | _ => 0

/-- Selectors that hold no part of a query that is read on its own. -/
inductive Selector.Simple : Selector → Prop
  | member (name : String) : Simple (.member name)
  | index (i : Int) : Simple (.index i)
  | wildcard : Simple .wildcard
  | descend : Simple .descend
  | slice (s : Slice) : Simple (.slice s)

/-- The innermost role gives way to others. -/
inductive Turn : Role → Act → List Role → Prop
  | stay (r : Role) : Turn r .skip [r]
  | queryRoot : Turn .start .root [.path]
  | queryName : Turn .start .skip [.queryCall]
  | queryCall (f : Function) : Turn .queryCall (.openCall f) [.firstArgument, .arguments, .path]
  | pathStep : Turn .path .skip [.selector, .path]
  | pathList : Turn .path .openUnion [.element, .elementEnd, .path]
  | pathEnd : Turn .path .skip []
  | selector {s : Selector} (hs : s.Simple) : Turn .selector (.selector s) []
  | descent : Turn .selector (.selector .descend) [.selector]
  | descentList : Turn .selector .openUnion [.element, .elementEnd]
  | wildcard : Turn .element (.selector .wildcard) [.path]
  | elementName : Turn .element .skip [.selector, .path]
  | elementBound : Turn .element .skip [.bound]
  | elementFilter : Turn .element .openFilter [.operand, .operator, .filterEnd]
  | elementComputed : Turn .element .openComputed [.operand, .operator, .computedEnd]
  | elementRoot : Turn .element .root [.path]
  | elementCurrent : Turn .element .current [.path]
  | nextElement : Turn .elementEnd .separator [.element, .elementEnd]
  | listEnd : Turn .elementEnd .closeUnion []
  | bound {s : Selector} (hs : s.Simple) : Turn .bound (.selector s) []
  | filterEnd : Turn .filterEnd .closeFilter []
  | computedEnd : Turn .computedEnd .closeComputed []
  | operandRoot : Turn .operand .root []
  | operandCurrent : Turn .operand .current []
  | literal (v : Value) : Turn .operand (.literal v) []
  | group : Turn .operand .openGroup [.operand]
  | unary (op : UnaryOp) (hop : (Operator.unary op).isPrefixed = true) :
      Turn .operand (.operator (.unary op)) [.operand]
  | operandCall (f : Function) : Turn .operand (.openCall f) [.firstArgument, .arguments]
  | operatorStep : Turn .operator .skip [.selector, .operator]
  | operatorList : Turn .operator .openUnion [.element, .elementEnd, .operator]
  | groupEnd : Turn .operator .closeGroup [.operator]
  | operatorEnd : Turn .operator .skip []
  | binary (op : BinaryOp) : Turn .operator (.operator (.binary op)) [.operand, .operator]
  | comparator : Turn .operator .skip [.comparator, .operator]
  | comparison (op : BinaryOp) : Turn .comparator (.operator (.binary op)) [.operand]
  | likes (p : Pattern) : Turn .comparator (.operator (.unary (.likes p))) []
  | half : Turn .operator .skip [.half, .operand, .operator]
  | halfEnd (op : BinaryOp) : Turn .half (.operator (.binary op)) []
  | argument : Turn .firstArgument .skip [.operand, .operator]
  | noArgument : Turn .firstArgument .skip []
  | nextArgument : Turn .arguments .closeArgument [.operand, .operator, .arguments]
  | callEnd : Turn .arguments .closeCall []

/-- An act that can only be taken where something is open. -/
def Act.closing? : Act → Option Act
  | closeGroup => some closeGroup
  | closeUnion => some closeUnion
  | closeFilter => some closeFilter
  | closeComputed => some closeComputed
  | closeArgument => some closeArgument
  | closeCall => some closeCall
  | _ => none

/-- The act with which a mode closes something at a character, given whether a parenthesis is open. -/
def Mode.closer? (grouped : Bool) (c : Char) : Mode → Option Act
  | operator => if c = ')' ∧ grouped = true then some .closeGroup else none
  | elementEnd => if c = ']' then some .closeUnion else none
  | filterEnd => if c = ']' ∨ c = ',' then some .closeFilter else none
  | computedEnd => if c = ']' ∨ c = ',' then some .closeComputed else none
  | arguments => if c = ',' then some .closeArgument else if c = ')' then some .closeCall else none
  | _ => none

/-- Whether a fault shows in the text alone, and not in what has been assembled. -/
def SyntaxFault.inText : SyntaxFault → Bool
  | unbalancedBraces | wrongArity => false
  | _ => true

/-- What a step does: it refuses the text, or takes an act and goes on in other modes, behind the next character or
before it. -/
inductive Move
  | refuse (past : Bool) (fault : SyntaxFault)
  | take (past : Bool) (act : Act) (modes : List Mode)

/-- A move that a role above some modes can make, where the act that closes something is known. -/
inductive Move.Legal (r : Role) (below : List Mode) (closer? : Option Act) : Move → Prop
  | refuse {past : Bool} {fault : SyntaxFault} (hf : fault.inText = true) (hc : closer? = none) :
      Legal r below closer? (.refuse past fault)
  | take {past : Bool} {act : Act} {modes : List Mode} {next : List Role} (ht : Turn r act next)
      (hm : Mode.roles modes = next ++ Mode.roles below) (hc : closer? = act.closing?) :
      Legal r below closer? (.take past act modes)

namespace Machine

variable {m n : Machine} {env : Env} {below : List Mode} {r : Role} {act : Act} {next : List Role}

/-- The roles of the modes, innermost first. -/
def roles (m : Machine) : List Role := Mode.roles m.modes

/-- The act with which the next step closes something, if it does. -/
def closer? (m : Machine) : Option Act :=
  match m.modes, m.rest with
  | mode :: _, c :: _ => mode.closer? m.assembly.hasOpenGroup c
  | _, _ => none

/-- Goes on behind the first character of a text, or stays before it. -/
def skip (m : Machine) (text : List Char) : Bool → Machine
  | false => m
  | true =>
    match text with
    | [] => m
    | c :: rest => m.past c rest

/-- The result of a move before a text. -/
def makes (m : Machine) (text : List Char) : Move → Except SyntaxError Machine
  | .refuse past fault => (m.skip text past).fail fault
  | .take past act modes =>
    match act.perform m.roots m.assembly with
    | .ok assembly => .ok { m.skip text past with modes, assembly, roots := m.roots + act.roots }
    | .error fault => (m.skip text past).fail fault

/-- Texts that begin alike. -/
inductive Heads : List Char → List Char → Prop
  | nil : Heads [] []
  | cons (c : Char) (rest rest' : List Char) : Heads (c :: rest) (c :: rest')

/-- Two machines make the same move, each before its own text. -/
def OneMove (m n : Machine) (text text' : List Char) (r : Role) (below : List Mode) (closer? : Option Act)
    (x y : Except SyntaxError Machine) : Prop :=
  ∃ v : Move, v.Legal r below closer? ∧ x = m.makes text v ∧ y = n.makes text' v

section rules

variable {text text' : List Char} {k : Option Act} {x x' y y' : Except SyntaxError Machine} {c : Char}
  {rest rest' : List Char} {modes : List Mode}

theorem oneMove_fail {fault : SyntaxFault} (hf : fault.inText = true) :
    OneMove m n text text' r below none (m.fail fault) (n.fail fault) :=
  ⟨.refuse false fault, .refuse hf rfl, rfl, rfl⟩

theorem oneMove_ite {p : Prop} [Decidable p] (h : p → OneMove m n text text' r below k x y)
    (h' : ¬p → OneMove m n text text' r below k x' y') :
    OneMove m n text text' r below k (if p then x else x') (if p then y else y') := by
  split
  · next hp => exact h hp
  · next hp => exact h' hp

/-- A move behind a character that keeps the modes. -/
theorem makes_past {a : Assembly} (hm : m.modes = modes) (hp : act.perform m.roots m.assembly = .ok a)
    (hr : act.roots = 0) : .ok { m.past c rest with assembly := a } = m.makes (c :: rest) (.take true act modes) := by
  rw [makes, hp, hr, ← hm]
  rfl

/-- Going on behind a character in the same mode. -/
theorem oneMove_past {mode : Mode} (hm : m.modes = mode :: below) (hn : n.modes = mode :: below) :
    OneMove m n (c :: rest) (c :: rest') mode.role below none (.ok (m.past c rest)) (.ok (n.past c rest')) :=
  ⟨.take true .skip (mode :: below), .take (.stay _) rfl rfl, makes_past hm rfl rfl, makes_past hn rfl rfl⟩

/-- A change of the assembly that may be a fault. -/
theorem attempt_of_ok {f : Assembly → Except SyntaxFault Assembly} {a : Assembly} (h : f m.assembly = .ok a) :
    m.attempt f = .ok { m with assembly := a } := by
  rw [attempt, h]

theorem attempt_eq_ok {f : Assembly → Except SyntaxFault Assembly} (h : m.attempt f = .ok n) :
    ∃ a, f m.assembly = .ok a ∧ n = { m with assembly := a } := by
  unfold attempt at h
  split at h
  · next a ha =>
    cases h
    exact ⟨a, ha, rfl⟩
  · cases h

theorem makes_attempt (past : Bool) {f : Assembly → Except SyntaxFault Assembly}
    (hp : ∀ k a, act.perform k a = f a) (hr : act.roots = 0) :
    ((m.skip text past).attempt f).map (·.goto modes) = m.makes text (.take past act modes) := by
  have hs : (m.skip text past).assembly = m.assembly ∧ (m.skip text past).roots = m.roots := by
    cases past <;> cases text <;> exact ⟨rfl, rfl⟩
  rw [attempt, makes, hp, hr, hs.1]
  cases f m.assembly with
  | error fault => rfl
  | ok a =>
    rw [Except.map, goto, hs.2]
    rfl

theorem attempt_move (past : Bool) {f : Assembly → Except SyntaxFault Assembly} (ht : Turn r act next)
    (hm : Mode.roles modes = next ++ Mode.roles below) (hp : ∀ k a, act.perform k a = f a) (hr : act.roots = 0) :
    OneMove m n text text' r below act.closing? (((m.skip text past).attempt f).map (·.goto modes))
      (((n.skip text' past).attempt f).map (·.goto modes)) :=
  ⟨.take past act modes, .take ht hm rfl, makes_attempt past hp hr, makes_attempt past hp hr⟩

theorem makes_attempt_past {f : Assembly → Except SyntaxFault Assembly} (hm : m.modes = modes)
    (hp : ∀ k a, act.perform k a = f a) (hr : act.roots = 0) :
    (m.past c rest).attempt f = m.makes (c :: rest) (.take true act modes) := by
  rw [← makes_attempt true hp hr, ← hm, skip, attempt]
  cases f (m.past c rest).assembly <;> rfl

theorem openCall_move {name : String} (ht : ∀ f, Turn r (.openCall f) next)
    (hm : Mode.roles modes = next ++ Mode.roles below) :
    OneMove m n (c :: rest) (c :: rest') r below none ((m.openCall env name c rest).map (·.goto modes))
      ((n.openCall env name c rest').map (·.goto modes)) := by
  unfold openCall
  cases Function.find? name env.functions with
  | none => exact oneMove_fail rfl
  | some f => exact ⟨.take true (.openCall f) modes, .take (ht f) hm rfl, rfl, rfl⟩

end rules

end Machine

end PathQuery
