import PathQuery.Proofs.Query.Brackets

namespace PathQuery

open Role (frames)

namespace Mode

/-- What a mode tells of the text before it. -/
def lexing (bs : List Bracket) : Mode → Lexing
  | start | operand | firstArgument => ⟨.none, .operand, bs⟩
  | queryCall _ | path | elementEnd | boundEnd _ _ | filterEnd | computedEnd | operator | operandName _ | arguments =>
    ⟨.none, .suffix, bs⟩
  | bareName _ _ => ⟨.name, .suffix, bs⟩
  | dot => ⟨.dot, .name, bs⟩
  | descent | dotName => ⟨.none, .name, bs⟩
  | quoted quote _ _ => ⟨.quoted quote, .suffix, bs⟩
  | escape quote _ _ .backslash | escape quote _ _ (.pairBackslash _) => ⟨.escape quote, .suffix, bs⟩
  | escape quote _ _ _ => ⟨.quoted quote, .suffix, bs⟩
  | element => ⟨.none, .element, bs⟩
  | integer _ => ⟨.none, .bound, bs⟩
  | digits _ _ => ⟨.integer, .suffix, bs⟩
  | number read => ⟨.number (read.head? = some 'e' || read.head? = some 'E'), .suffix, bs⟩
  | json depth _ => ⟨.json depth, .suffix, bs⟩
  | jsonString depth _ => ⟨.jsonString depth, .suffix, bs⟩
  | jsonEscape depth _ => ⟨.jsonEscape depth, .suffix, bs⟩
  | less => ⟨.operator '<', .operand, bs⟩
  | greater => ⟨.operator '>', .operand, bs⟩
  | equal => ⟨.operator '=', .operand, bs⟩
  | notEqual => ⟨.operator '!', .operand, bs⟩
  | or => ⟨.operator '|', .operand, bs⟩
  | and => ⟨.operator '&', .operand, bs⟩
  | patternStart => ⟨.none, .pattern, bs⟩
  | pattern _ => ⟨.pattern, .suffix, bs⟩
  | patternEscape _ => ⟨.patternEscape, .suffix, bs⟩
  | patternEnd _ => ⟨.flag, .suffix, bs⟩

/-- What the innermost of some modes tells; behind the last one the query is complete. -/
def lexingOf (bs : List Bracket) : List Mode → Lexing
  | [] => ⟨.none, .suffix, bs⟩
  | mode :: _ => mode.lexing bs

/-- What is due where a mode ends. -/
def leaves : Mode → Due
  | or | and => .operand
  | _ => .suffix

/-- A quote does not occur in the escapes of units. -/
def QuotesWell : Mode → Prop
  | quoted quote _ _ | escape quote _ _ _ => quote = '\'' ∨ quote = '"'
  | _ => True

/-- Every mode stands above one that goes on where it ends. -/
def Stacked : List Mode → Prop
  | [] => True
  | mode :: below => mode.QuotesWell ∧ (∀ bs, lexingOf bs below = ⟨.none, mode.leaves, bs⟩) ∧ Stacked below

end Mode

open Mode (lexingOf Stacked)

namespace Machine

variable {m n : Machine} {env : Env} {below modes : List Mode} {c : Char} {rest : List Char} {σ : Lexing}

/-- What some modes and what waits in the assembly tell of the text before them. -/
def lexingAt (modes : List Mode) (pending : List Pending) : Lexing :=
  lexingOf (Frame.brackets (frames (Mode.roles modes)) pending) modes

def lexing (m : Machine) : Lexing := lexingAt m.modes m.assembly.pending

theorem lexing_of_pending {pending : List Pending} (h : m.assembly.pending = pending) :
    m.lexing = lexingAt m.modes pending := by
  rw [lexing, h]

/-- A step before a character that fails or goes on as the tokens do, behind the character or before it. -/
def Lexes (σ : Lexing) (c : Char) (rest : List Char) (r : Except SyntaxError Machine) : Prop :=
  ∀ n, r = .ok n → Stacked n.modes ∧
    (n.rest = rest ∧ n.lexing = σ.read c ∨ n.rest = c :: rest ∧ σ.Ended n.lexing c)

theorem lexes_fail (fault : SyntaxFault) : Lexes σ c rest (n.fail fault) := by
  intro k hk
  cases hk

theorem lexes_ite {p : Prop} [Decidable p] {x y : Except SyntaxError Machine} (hx : p → Lexes σ c rest x)
    (hy : ¬p → Lexes σ c rest y) : Lexes σ c rest (if p then x else y) := by
  split
  · next h => exact hx h
  · next h => exact hy h

theorem lexes_past (hs : Stacked n.modes) (hr : n.rest = rest) (hl : n.lexing = σ.read c) :
    Lexes σ c rest (.ok n) := by
  intro k hk
  cases hk
  exact ⟨hs, .inl ⟨hr, hl⟩⟩

theorem lexes_kept (hs : Stacked n.modes) (hr : n.rest = c :: rest) (hl : σ.Ended n.lexing c) :
    Lexes σ c rest (.ok n) := by
  intro k hk
  cases hk
  exact ⟨hs, .inr ⟨hr, hl⟩⟩

/-- A change of the assembly that may be a fault. -/
theorem lexes_attempt {f : Assembly → Except SyntaxFault Assembly}
    (h : ∀ a, f m.assembly = .ok a → Lexes σ c rest (.ok ({ m with assembly := a }.goto modes))) :
    Lexes σ c rest ((m.attempt f).map (·.goto modes)) := by
  unfold attempt
  split
  · next a ha => exact h a ha
  · exact lexes_fail _

/-- A token has ended before the character. -/
theorem lexes_rested (hs : Stacked n.modes) (hr : n.rest = c :: rest) (hl : n.lexing = σ.rested)
    (hc : σ.token.continues c = false) : Lexes σ c rest (.ok n) :=
  lexes_kept hs hr (hl ▸ Lexing.ended_rested hc)

/-- A blank before a token. -/
theorem lexes_blank {mode : Mode} (hm : m.modes = mode :: below) (hs : Stacked (mode :: below))
    (hn : ∀ bs, (mode.lexing bs).token = .none) (hc : Text.isSpace c = true) :
    Lexes (lexingAt (mode :: below) m.assembly.pending) c rest (.ok (m.past c rest)) := by
  refine lexes_past (hm ▸ hs) rfl ?_
  have hl : (m.past c rest).lexing = lexingAt (mode :: below) m.assembly.pending := hm ▸ rfl
  have htoken : (lexingAt (mode :: below) m.assembly.pending).token = .none := hn _
  have hends : ¬PartToken.none.continues c = true := Bool.false_ne_true
  rw [hl, Lexing.read, htoken, if_neg hends, if_pos hc, Lexing.rested, ← htoken]

/-- Behind an operator that is pushed the same brackets are open. -/
theorem lexingAt_pushOperator (modes : List Mode) (a : Assembly) (op : Operator) :
    lexingAt modes (a.pushOperator op).pending = lexingAt modes a.pending := by
  rw [lexingAt, Assembly.brackets_pushOperator, lexingAt]

/-- Behind a binary operator. -/
theorem lexing_emitBinary (m : Machine) (op : BinaryOp) (modes : List Mode) :
    ((m.emitBinary op).goto modes).lexing = lexingAt modes m.assembly.pending :=
  lexingAt_pushOperator _ _ _

theorem lexing_emitSelector (m : Machine) (s : Selector) (modes : List Mode) :
    ((m.emitSelector s).goto modes).lexing = lexingAt modes m.assembly.pending :=
  lexing_of_pending (Assembly.pushSelector_pending _ _)

/-- The token of a mode has ended. -/
def endToken (m : Machine) (env : Env) (below : List Mode) : Mode → Except SyntaxError Machine
  | .bareName use read => .ok (m.endName below use read)
  | .dot | .descent => .ok (m.goto (.dotName :: below))
  | .digits bound read => .ok (m.goto (.boundEnd bound read :: below))
  | .number read => m.endNumber env below read
  | .less => .ok ((m.emitBinary .lt).goto (.operand :: below))
  | .greater => .ok ((m.emitBinary .gt).goto (.operand :: below))
  | .patternEnd read => m.endPattern env below read false
  | _ => m.fail .malformed

/-- Behind a token its mode gives way to one between tokens, and nothing is read. -/
theorem endToken_ok {mode : Mode} (hs : Stacked (mode :: below)) (h : m.endToken env below mode = .ok n) :
    Stacked n.modes ∧ n.rest = m.rest ∧ n.lexing = (lexingAt (mode :: below) m.assembly.pending).rested := by
  obtain ⟨-, hbelow, hstack⟩ := id hs
  cases mode with
  | bareName use read =>
    cases h
    cases use with
    | member => exact ⟨hstack, rfl, (lexing_emitSelector _ _ _).trans (hbelow _)⟩
    | query => exact ⟨hs, rfl, rfl⟩
    | operand => exact ⟨hs, rfl, rfl⟩
  | dot | descent | digits =>
    cases h
    exact ⟨hs, rfl, rfl⟩
  | number read =>
    rw [endToken, endNumber] at h
    split at h <;> cases h
    exact ⟨hstack, rfl, hbelow _⟩
  | less | greater =>
    cases h
    exact ⟨hs, rfl, lexing_emitBinary _ _ _⟩
  | patternEnd read =>
    rw [endToken, endPattern] at h
    split at h <;> cases h
    exact ⟨hstack, rfl, (lexingAt_pushOperator _ _ _).trans (hbelow _)⟩
  | _ => cases h

theorem lexes_endToken {mode : Mode} (env : Env) (hs : Stacked (mode :: below)) (hr : m.rest = c :: rest)
    (hc : (lexingAt (mode :: below) m.assembly.pending).token.continues c = false) :
    Lexes (lexingAt (mode :: below) m.assembly.pending) c rest (m.endToken env below mode) := by
  intro n hn
  obtain ⟨hstack, hrest, hl⟩ := endToken_ok hs hn
  exact lexes_rested hstack (hrest.trans hr) hl hc n rfl

end Machine

end PathQuery
