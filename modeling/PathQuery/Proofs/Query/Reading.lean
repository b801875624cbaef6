import PathQuery.Proofs.Query.Lexical
import PathQuery.Proofs.Query.Moves

namespace PathQuery.Syntax

/-- The reader of a query without its position. -/
structure Stage where
  rest : List Char
  modes : List Mode
  assembly : Assembly
  roots : Nat

/-- The reader at a position in the text. -/
def Stage.at (σ : Stage) (position : Text.Position) : Machine :=
  ⟨σ.rest, position, σ.modes, σ.assembly, σ.roots⟩

/-- What reading from a stage comes to, a program or a fault, wherever the stage stands in the text. -/
def Stage.Gives (env : Env) (σ : Stage) (r : Except SyntaxFault Program) : Prop :=
  ∀ position, ((σ.at position).run env).mapError (·.fault) = r

/-- From the stage `σ` the reader comes to `τ`. -/
def Comes (env : Env) (σ τ : Stage) : Prop :=
  ∀ position, ∃ later, Machine.Reaches env (σ.at position) (τ.at later)

variable {env : Env} {mode : Mode} {modes below : List Mode} {a : Assembly} {k : Nat} {c : Char}
  {rest : List Char}

namespace Comes

variable {σ τ υ : Stage}

theorem refl (σ : Stage) : Comes env σ σ := fun position => ⟨position, .refl _⟩

theorem trans (h : Comes env σ τ) (h' : Comes env τ υ) : Comes env σ υ := by
  intro position
  obtain ⟨later, hlater⟩ := h position
  obtain ⟨last, hlast⟩ := h' later
  exact ⟨last, hlater.trans hlast⟩

/-- What is read from the later stage is read from the earlier one. -/
theorem gives (h : Comes env σ τ) {r : Except SyntaxFault Program} (hr : τ.Gives env r) : σ.Gives env r := by
  intro position
  obtain ⟨later, hlater⟩ := h position
  rw [hlater.run]
  exact hr later

/-- One step of the machine. -/
theorem step (h : ∀ position, ∃ later, (σ.at position).step env = .ok (τ.at later)) : Comes env σ τ := by
  intro position
  obtain ⟨later, hs⟩ := h position
  exact ⟨later, .step hs (.refl _)⟩

/-- A step that meets a character. -/
theorem char (h : ∀ position, ∃ later, Machine.step ⟨c :: rest, position, modes, a, k⟩ env =
    .ok ⟨τ.rest, later, τ.modes, τ.assembly, τ.roots⟩) : Comes env ⟨c :: rest, modes, a, k⟩ τ :=
  step h

/-- A step at the end of the text. -/
theorem atEnd (h : ∀ position, ∃ later, Machine.step ⟨[], position, mode :: below, a, k⟩ env =
    .ok ⟨τ.rest, later, τ.modes, τ.assembly, τ.roots⟩) : Comes env ⟨[], mode :: below, a, k⟩ τ :=
  step h

end Comes

/-- A character that is refused. -/
theorem Stage.gives_error {fault : SyntaxFault} (h : ∀ position, ∃ later,
    Machine.step ⟨c :: rest, position, modes, a, k⟩ env = .error ⟨fault, later⟩) :
    Stage.Gives env ⟨c :: rest, modes, a, k⟩ (.error fault) := by
  intro position
  obtain ⟨later, hs⟩ := h position
  rw [Stage.at, Machine.run, if_neg (by simp [Machine.isFinished])]
  split
  · next e he =>
    cases hs.symm.trans he
    rfl
  · next next hn => simp [hs] at hn

/-- Whether blanks can stand where a mode begins. -/
def skipsBlanks : Mode → Bool
  | .start | .queryCall _ | .path | .dotName | .element | .elementEnd | .integer _ | .boundEnd _ _ | .filterEnd
  | .computedEnd | .operand | .operator | .operandName _ | .arguments | .firstArgument | .patternStart => true
  | _ => false

theorem comes_blank (hm : skipsBlanks mode = true) (hc : Text.isSpace c = true) :
    Comes env ⟨c :: rest, mode :: below, a, k⟩ ⟨rest, mode :: below, a, k⟩ := by
  refine .char fun position => ⟨position.after c, ?_⟩
  cases mode <;> cases hm
  all_goals
    simp only [Machine.step, Machine.stepIn, Machine.readStart, Machine.readQueryCall, Machine.readPath,
      Machine.readDotName, Machine.readElement, Machine.readElementEnd, Machine.readInteger, Machine.readBoundEnd,
      Machine.readExpressionEnd, Machine.readOperand, Machine.readOperator, Machine.readOperandName,
      Machine.readArguments, Machine.readFirstArgument, Machine.readPatternStart, hc, if_true, Machine.past]

theorem comes_blanks (hm : skipsBlanks mode = true) {blanks : List Char} (hb : Blanks blanks) :
    Comes env ⟨blanks ++ rest, mode :: below, a, k⟩ ⟨rest, mode :: below, a, k⟩ := by
  induction blanks with
  | nil => exact .refl _
  | cons c blanks ih =>
    exact (comes_blank hm (hb c (by simp))).trans (ih fun d hd => hb d (List.mem_cons_of_mem _ hd))

/-- The reader between two tokens, with the tokens that are left. -/
structure Config where
  tokens : List Token
  modes : List Mode
  assembly : Assembly
  roots : Nat

/-- What reading comes to with any text of the tokens that are left. -/
def Config.Gives (env : Env) (c : Config) (r : Except SyntaxFault Program) : Prop :=
  ∀ blanks text, Blanks blanks → Written c.tokens text →
    Stage.Gives env ⟨blanks ++ text, c.modes, c.assembly, c.roots⟩ r

/-- What a text comes to whose tokens are written side by side. -/
theorem Config.Gives.ofText {ts : List Token} {r : Except SyntaxFault Program}
    (h : Config.Gives env ⟨ts, [.start], .empty, 0⟩ r) (ha : ∀ t ∈ ts, t.apart = false) (text : String)
    (ht : text.toList = ts.flatMap Token.text) : (Program.ofText env text).mapError (·.fault) = r := by
  rw [Program.ofText, Machine.start, ht]
  exact h [] _ blanks_nil (written_texts ha) .start

/-- From the configuration `c` the reader comes to `d`, whichever text of the tokens it reads. -/
def Leads (env : Env) (c d : Config) : Prop :=
  ∀ blanks text, Blanks blanks → Written c.tokens text → ∃ blanks' text', Blanks blanks' ∧ Written d.tokens text' ∧
    Comes env ⟨blanks ++ text, c.modes, c.assembly, c.roots⟩ ⟨blanks' ++ text', d.modes, d.assembly, d.roots⟩

/-- What can stand behind a token that is followed by others. -/
inductive Follows : List Token → List Char → Prop
  | mk {ts : List Token} {blanks text : List Char} (hb : Blanks blanks) (ha : needsBlank ts = true → blanks ≠ [])
      (ht : Written ts text) : Follows ts (blanks ++ text)

/-- The next character is a blank or starts the next token, if there is any. -/
theorem Follows.head {ts : List Token} (h : Follows ts rest) {p : Char → Prop}
    (hs : ∀ c, Text.isSpace c = true → p c) (ht : ∀ t ∈ ts.head?, t.apart = true ∨ p t.first) :
    ∀ c ∈ rest.head?, p c := by
  obtain ⟨hb, ha, ht'⟩ := h
  rename_i blanks text
  cases blanks with
  | cons b blanks =>
    intro c hc
    obtain rfl : b = c := by simpa using hc
    exact hs b (hb b (by simp))
  | nil =>
    cases ht' with
    | nil => nofun
    | @cons t ts blanks text _ _ _ =>
      intro c hc
      obtain rfl : t.first = c := by simpa [Token.text] using hc
      have hn : t.apart = false := by
        cases hap : t.apart with
        | false => rfl
        | true => exact absurd rfl (ha (by simp [needsBlank, hap]))
      exact (ht t rfl).resolve_left (by simp [hn])

namespace Leads

variable {c d e : Config} {t : Token} {ts : List Token}

theorem refl (c : Config) : Leads env c c := fun blanks text hb ht => ⟨blanks, text, hb, ht, .refl _⟩

theorem trans (h : Leads env c d) (h' : Leads env d e) : Leads env c e := by
  intro blanks text hb ht
  obtain ⟨blanks', text', hb', ht', hd⟩ := h blanks text hb ht
  obtain ⟨blanks'', text'', hb'', ht'', he⟩ := h' blanks' text' hb' ht'
  exact ⟨blanks'', text'', hb'', ht'', hd.trans he⟩

/-- What is read from the later configuration is read from the earlier one. -/
theorem gives (h : Leads env c d) {r : Except SyntaxFault Program} (hr : d.Gives env r) : c.Gives env r := by
  intro blanks text hb ht
  obtain ⟨blanks', text', hb', ht', hd⟩ := h blanks text hb ht
  exact hd.gives (hr blanks' text' hb' ht')

/-- A token is read in a mode that skips blanks. -/
theorem token (hm : skipsBlanks mode = true) {modes' : List Mode} {b : Assembly} {k' : Nat}
    (h : ∀ rest, Follows ts rest → Comes env ⟨t.text ++ rest, mode :: below, a, k⟩ ⟨rest, modes', b, k'⟩) :
    Leads env ⟨t :: ts, mode :: below, a, k⟩ ⟨ts, modes', b, k'⟩ := by
  intro blanks text hb ht
  cases ht with
  | cons hb' ha ht => exact ⟨_, _, hb', ht, (comes_blanks hm hb).trans (h _ ⟨hb', ha, ht⟩)⟩

/-- A token of one character is read in one step. -/
theorem char {ch : Char} (hm : skipsBlanks mode = true) {modes' : List Mode} {b : Assembly} {k' : Nat}
    (h : ∀ rest position, ∃ later, Machine.step ⟨ch :: rest, position, mode :: below, a, k⟩ env =
      .ok ⟨rest, later, modes', b, k'⟩) :
    Leads env ⟨.char ch :: ts, mode :: below, a, k⟩ ⟨ts, modes', b, k'⟩ :=
  token hm fun rest _ => .char fun position => h rest position

/-- The next token is kept for another mode. -/
theorem keep (hm : skipsBlanks mode = true) {modes' : List Mode} {b : Assembly} {k' : Nat}
    (h : ∀ rest, Comes env ⟨t.first :: rest, mode :: below, a, k⟩ ⟨t.first :: rest, modes', b, k'⟩) :
    Leads env ⟨t :: ts, mode :: below, a, k⟩ ⟨t :: ts, modes', b, k'⟩ := by
  intro blanks text hb ht
  refine ⟨[], text, blanks_nil, ht, ?_⟩
  cases ht with
  | cons _ _ _ => exact (comes_blanks hm hb).trans (h _)

/-- The next token and the blanks before it are kept for another mode. -/
theorem keepAll {modes' : List Mode} {b : Assembly} {k' : Nat}
    (h : ∀ ch rest, Text.isSpace ch = true ∨ ch = t.first → ∀ position, ∃ later,
      Machine.step ⟨ch :: rest, position, modes, a, k⟩ env = .ok ⟨ch :: rest, later, modes', b, k'⟩) :
    Leads env ⟨t :: ts, modes, a, k⟩ ⟨t :: ts, modes', b, k'⟩ := by
  intro blanks text hb ht
  refine ⟨blanks, text, hb, ht, ?_⟩
  cases ht with
  | cons hb' ha ht =>
    cases blanks with
    | nil => exact .char (h t.first _ (.inr rfl))
    | cons ch blanks => exact .char (h ch _ (.inl (hb ch (by simp))))

/-- A text is read up to the character behind it, if blanks can stand there. -/
theorem reaches_last {ch : Char} {b : Assembly} {k' : Nat} (hc : Text.isSpace ch = false)
    (hm : skipsBlanks mode = true) (h : Leads env ⟨ts ++ [.char ch], modes, a, k⟩ ⟨[.char ch], mode :: below, b, k'⟩)
    {blanks text : List Char} (hb : Blanks blanks) (ht : Written ts text) (position : Text.Position) : ∃ later,
      Machine.Reaches env ⟨blanks ++ text ++ [ch], position, modes, a, k⟩ ⟨[ch], later, mode :: below, b, k'⟩ := by
  obtain ⟨blanks', text', hb', ht', hcomes⟩ := h blanks (text ++ [ch]) hb (ht.append_char ch)
  cases ht' with
  | @cons _ _ trailing _ htrailing _ hnil =>
    cases hnil
    obtain ⟨later, hreach⟩ := (hcomes.trans (comes_blanks hm hb')) position
    rw [List.append_nil] at hreach
    have hlast : trailing.getLast?.getD ch = ch := by
      have hsuffix : ch :: trailing <:+ (blanks ++ text) ++ [ch] := List.append_assoc .. ▸ hreach.rest_suffix
      obtain ⟨front, hfront⟩ := hsuffix
      have hends := congrArg List.getLast? hfront
      rw [List.getLast?_append, List.getLast?_cons, List.getLast?_concat] at hends
      exact Option.some.inj hends
    cases hblank : trailing.getLast? with
    | none =>
      rw [List.getLast?_eq_none_iff.1 hblank] at hreach
      exact ⟨later, List.append_assoc .. ▸ hreach⟩
    | some c =>
      -- the last blank would be the character
      rw [hblank] at hlast
      obtain rfl : c = ch := hlast
      rw [htrailing c (List.mem_of_getLast? hblank)] at hc
      cases hc

end Leads

end PathQuery.Syntax
