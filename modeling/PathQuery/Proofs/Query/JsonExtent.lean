import PathQuery.Proofs.Query.Elements
import PathQuery.Proofs.Query.Placed
import PathQuery.Standard

namespace PathQuery

open Syntax (Blanks Comes IsJson Stage StringChars)
open Syntax (blanks_nil comes_blanks comes_lastBracket skipsBlanks step_lastBracket)
open Mode (Stacked)

/-- In a JSON text that is partly read, a bracket is open. -/
def PartToken.Deep : PartToken → Prop
  | json depth | jsonString depth | jsonEscape depth => 0 < depth
  | _ => True

namespace Lexing

variable {σ : Lexing} {c : Char}

theorem deep_first (bs : List Bracket) (c : Char) (due : Due) : (first bs c due).token.Deep := by
  cases due with
  | pattern => trivial
  | _ => simp only [first, firstOfSuffix]; split_ifs <;> first | trivial | exact Nat.one_pos

theorem deep_more (h : σ.token.Deep) (c : Char) : (σ.more c).token.Deep := by
  obtain ⟨token, due, bs⟩ := σ
  cases token with
  | json depth =>
    simp only [more]
    split_ifs with hopen hclose hlast hquote
    · exact Nat.succ_pos depth
    · trivial
    · exact Nat.sub_pos_of_lt (Nat.lt_of_not_le hlast)
    · exact h
    · exact h
  | jsonString depth =>
    simp only [more]
    split_ifs <;> exact h
  | jsonEscape depth => exact h
  | quoted quote =>
    simp only [more]
    split_ifs <;> trivial
  | pattern =>
    simp only [more]
    split_ifs <;> trivial
  | _ => trivial

theorem deep_read (h : σ.token.Deep) (c : Char) : (σ.read c).token.Deep := by
  unfold read
  split_ifs
  · exact deep_more h c
  · trivial
  · exact deep_first _ _ _

theorem deep_read_open (h : σ.token = .json 0) (hc : c = '[' ∨ c = '\x7b') : (σ.read c).token.Deep := by
  have hmore : σ.token.continues c = true := by rw [h]; rfl
  rw [read_more hmore, more, h]
  rcases hc with rfl | rfl <;> exact Nat.one_pos

/-- No token that a brace starts is the last of a JSON text. -/
theorem first_brace_ne (bs bs' : List Bracket) (due : Due) : first bs '\x7d' due ≠ ⟨.none, .suffix, bs'⟩ := by
  cases due <;> nofun

/-- Where a token has ended before a character, a JSON text begins only at a bracket that opens it, unless a list can
end there. -/
theorem Ended.deep {mode : Mode} {bs : List Bracket} (h : σ.Ended (mode.lexing bs) c) (hc : c ≠ ']') :
    (mode.lexing bs).token.Deep ∨ (mode.lexing bs).token = .json 0 ∧ (c = '[' ∨ c = '\x7b') := by
  have hread : (mode.lexing bs).read c = if Text.isSpace c then σ.rested else first σ.brackets c σ.due := by
    rw [h.reads, read, if_neg (by simp [h.ends])]
  have hdeep : ((mode.lexing bs).read c).token.Deep := by
    rw [hread]
    split_ifs
    · trivial
    · exact deep_first _ _ _
  cases mode with
  | json depth text =>
    rcases Nat.eq_zero_or_pos depth with rfl | hdepth
    · refine .inr ⟨rfl, ?_⟩
      by_contra hopen
      have hclose : c ≠ '\x7d' := by
        rintro rfl
        exact first_brace_ne _ bs _ hread.symm
      have hlast : ¬(c = ']' ∨ c = '\x7d') := not_or.2 ⟨hc, hclose⟩
      simp only [Mode.lexing, read_json, Bool.or_eq_true, decide_eq_true_eq, if_neg hopen, if_neg hlast] at hdeep
      split_ifs at hdeep <;> cases hdeep
    · exact .inl hdepth
  | jsonString depth text =>
    rw [Mode.lexing, read_jsonString] at hdeep
    refine .inl ?_
    split_ifs at hdeep <;> exact hdeep
  | jsonEscape depth text => exact .inl hdeep
  | escape quote use text e => cases e <;> exact .inl trivial
  | _ => exact .inl trivial

end Lexing

namespace Machine

variable {env : Env} {m n : Machine} {below : List Mode} {c : Char} {read rest : List Char}

/-- Where the reader stands is decided by what it has read. -/
theorem Reaches.position_eq (h : Reaches env m n) (hr : m.rest = read ++ n.rest) :
    n.position = m.position.afterAll read := by
  induction h generalizing read with
  | refl m =>
    obtain rfl : read = [] := List.append_left_eq_self.1 hr.symm
    rfl
  | @step m n k hs hreach ih =>
    obtain hstay | ⟨c, hpast⟩ := rest_of_step hs
    · rw [ih (hstay.trans hr), (step_before hs hstay rfl).1]
    · obtain ⟨later, hlater⟩ := hreach.rest_suffix
      rw [hpast, ← hlater, ← List.cons_append] at hr
      obtain rfl := List.append_cancel_right hr
      rw [ih hlater.symm, (step_behind hs hpast []).1]
      rfl

/-- A stage comes to a later one at the position behind what stands between them. -/
theorem reaches_of_comes {σ τ : Stage} (h : Comes env σ τ) (hr : σ.rest = read ++ τ.rest) (position : Text.Position) :
    Reaches env (σ.at position) (τ.at (position.afterAll read)) := by
  obtain ⟨later, hreach⟩ := h position
  have hlater : later = position.afterAll read := hreach.position_eq hr
  rwa [← hlater]

/-- How a JSON text ends does not depend on where the reader is within it. -/
theorem endJson_goto (m : Machine) (modes : List Mode) (read : List Char) :
    (m.goto modes).endJson env below read = m.endJson env below read := by
  unfold endJson
  cases env.json? (String.ofList read.reverse) <;> rfl

/-- An array or object that stands where an operand is due is read to its last bracket, and ends there. -/
theorem reaches_lastBracket (env : Env) {leading text : List Char} (hm : m.modes = .operand :: below)
    (hr : m.rest = leading ++ (text ++ rest)) (hl : Blanks leading) (ht : IsJson .container text) :
    ∃ n, Reaches env m n ∧ n.isFinished = false ∧
      n.step env = endJson (m.movedTo rest (m.position.afterAll (leading ++ text))) env below text.reverse := by
  obtain ⟨inner, e, rfl, he, hinner⟩ := comes_lastBracket ht
  have hcomes : Comes env ⟨m.rest, m.modes, m.assembly, m.roots⟩
      ⟨e :: rest, .json 1 inner.reverse :: below, m.assembly, m.roots⟩ := by
    rw [hr, hm]
    exact (comes_blanks rfl hl).trans hinner
  have hread : m.rest = (leading ++ inner) ++ e :: rest := by simp [hr]
  refine ⟨_, reaches_of_comes hcomes hread m.position, rfl, ?_⟩
  have hposition : m.position.afterAll (leading ++ (inner ++ [e])) =
      (m.position.afterAll (leading ++ inner)).after e := by
    rw [← List.append_assoc, Text.Position.afterAll_append]
    rfl
  rw [hposition, List.reverse_append]
  exact (step_lastBracket he).trans (endJson_goto (m.movedTo rest _) _ _)

/-- Blanks are read where a mode skips them. -/
theorem reaches_past_blanks {mode : Mode} {blanks : List Char} (hm : m.modes = mode :: below)
    (hk : skipsBlanks mode = true) (hb : Blanks blanks) (hr : m.rest = blanks ++ rest) :
    Reaches env m (m.movedTo rest (m.position.afterAll blanks)) := by
  have hcomes : Comes env ⟨m.rest, m.modes, m.assembly, m.roots⟩ ⟨rest, m.modes, m.assembly, m.roots⟩ := by
    rw [hr, hm]
    exact comes_blanks hk hb
  exact reaches_of_comes hcomes hr m.position

/-- A step before a bracket that closes a list begins no JSON text: before a comma it is the same step, and a comma ends
every token. -/
theorem deep_before_bracket (hs : Stacked m.modes) (hf : Role.Sound m.roles) (hr : m.rest = ']' :: rest)
    (h : m.step env = .ok n) (hn : n.rest = m.rest) : n.lexing.token.Deep := by
  have hbracket : (m.facing [']']).step env = .ok (n.facing [']']) := (step_before h hn (by rw [hr]; rfl)).2
  have hcomma := step_before_comma rfl hbracket rfl
  obtain ⟨-, ⟨hrest, -⟩ | ⟨-, hended⟩⟩ := step_lexes (m := (m.facing [']']).before [',']) hs hf rfl _ hcomma
  · cases hrest
  · have hsign : n.lexing.token.continues ',' = false := hended.signs (by decide)
    cases ht : n.lexing.token with
    | json | jsonString | jsonEscape => rw [ht] at hsign; cases hsign
    | _ => trivial

/-- A step that reads nothing begins a JSON text before its first bracket. -/
theorem deep_of_kept (hs : Stacked m.modes) (hf : Role.Sound m.roles) (hr : m.rest = c :: rest)
    (h : m.step env = .ok n) (hn : n.rest = m.rest) (he : m.lexing.Ended n.lexing c) :
    n.lexing.token.Deep ∨ n.lexing.token = .json 0 ∧ (c = '[' ∨ c = '\x7b') := by
  by_cases hc : c = ']'
  · subst hc
    exact .inl (deep_before_bracket hs hf hr h hn)
  · cases hmodes : n.modes with
    | nil =>
      have hl : n.lexing.token = .none := by rw [lexing, lexingAt, hmodes]; rfl
      rw [hl]
      exact .inl trivial
    | cons mode below =>
      obtain ⟨bs, hl⟩ := lexing_of_modes hmodes
      rw [hl] at he ⊢
      exact he.deep hc

/-- The modes are stacked, and a JSON text that is partly read has an open bracket, or the next character opens its
first one. -/
structure Nested (m : Machine) : Prop where
  stacked : Stacked m.modes
  fitting : m.Fitting
  deep : ∀ c ∈ m.rest.head?, m.lexing.token.Deep ∨ m.lexing.token = .json 0 ∧ (c = '[' ∨ c = '\x7b')

theorem nested_start (text : List Char) : (start text).Nested where
  stacked := ⟨trivial, fun _ => rfl, trivial⟩
  fitting := fitting_start text
  deep := fun _ _ => .inl trivial

theorem Nested.step (hm : m.Nested) (h : m.step env = .ok n) : n.Nested where
  stacked := stacked_step hm.stacked hm.fitting.sound h
  fitting := fitting_step hm.fitting h
  deep := by
    intro d hd
    cases hr : m.rest with
    | nil =>
      rw [(step_movedTo_nil hr h m.position).1] at hd
      cases hd
    | cons c rest =>
      obtain ⟨-, ⟨-, hlexing⟩ | ⟨hrest, hended⟩⟩ := step_lexes hm.stacked hm.fitting.sound hr n h
      · rw [hlexing]
        rcases hm.deep c (by rw [hr]; rfl) with hdeep | ⟨hzero, hopen⟩
        · exact .inl (Lexing.deep_read hdeep c)
        · exact .inl (Lexing.deep_read_open hzero hopen)
      · rw [hrest] at hd
        obtain rfl : c = d := by simpa using hd
        exact deep_of_kept hm.stacked hm.fitting.sound hr h (hrest.trans hr.symm) hended

theorem Reaches.nested {text : List Char} (h : Reaches env (.start text) m) : m.Nested :=
  h.keeps Nested.step (nested_start text)

/-- Behind an operand a mode is waiting that skips blanks. -/
theorem Nested.skipsBlanks (hm : m.Nested) (h : m.modes = .operand :: below) :
    ∃ mode others, below = mode :: others ∧ skipsBlanks mode = true := by
  have hstacked := hm.stacked
  have hsound := hm.fitting.sound
  rw [roles, h] at hsound
  rw [h] at hstacked
  cases below with
  | nil =>
    obtain ⟨frame, outer, hframes, -⟩ := hsound.1
    cases hframes
  | cons mode others =>
    have hlexing : mode.lexing [] = ⟨.none, .suffix, []⟩ := hstacked.2.1 []
    refine ⟨mode, others, rfl, ?_⟩
    cases mode with
    | escape quote use read e => cases e <;> cases hlexing
    | _ => cases hlexing <;> rfl

/-- Where an operand is due, a JSON text of an array or object, with any blanks around it, is read to its last bracket,
whatever stands behind it. If the reader of JSON texts gives it a value, it is a literal of that value, which is made
right behind the bracket, and reading goes on behind the text; otherwise the query is refused at that place. A bracket
that closes is met in a JSON text only where one is open. -/
theorem json_literal_delimited (env : Env) (s : String) (m : Machine)
    (hm : Reaches env (.start s.toList) m) :
    (∀ (below : List Mode) (leading text blanks rest : List Char), m.modes = .operand :: below →
      m.rest = leading ++ (text ++ (blanks ++ rest)) → Blanks leading → IsJson .container text → Blanks blanks →
      (∀ v, env.json? (String.ofList text) = some v →
        let behind (read left : List Char) : Machine :=
          ⟨left, m.position.afterAll (leading ++ read), below, m.assembly.push (.literal v), m.roots⟩
        Reaches env m (behind text (blanks ++ rest)) ∧
          Reaches env (behind text (blanks ++ rest)) (behind (text ++ blanks) rest) ∧
          Program.ofText env s = (behind (text ++ blanks) rest).run env) ∧
      (env.json? (String.ofList text) = none →
        Program.ofText env s = .error ⟨.badLiteral, m.position.afterAll (leading ++ text)⟩)) ∧
      ∀ (depth : Nat) (read : List Char) (below : List Mode) (c : Char) (rest : List Char),
        m.modes = .json depth read :: below → m.rest = c :: rest → c = ']' ∨ c = '\x7d' → 0 < depth := by
  have hnested := hm.nested
  refine ⟨?_, ?_⟩
  · intro below leading text blanks rest hmodes hrest hl ht hb
    obtain ⟨n, hreach, hunfinished, hstep⟩ := reaches_lastBracket env hmodes hrest hl ht
    rw [endJson, List.reverse_reverse] at hstep
    constructor
    · intro v hv behind
      rw [hv] at hstep
      have hliteral : Reaches env m (behind text (blanks ++ rest)) := hreach.trans (.step hstep (.refl _))
      obtain ⟨mode, others, rfl, hskips⟩ := hnested.skipsBlanks hmodes
      have hblanks : Reaches env (behind text (blanks ++ rest)) (behind (text ++ blanks) rest) := by
        have hpast : Reaches env (behind text (blanks ++ rest)) _ := reaches_past_blanks rfl hskips hb rfl
        rwa [movedTo, ← Text.Position.afterAll_append, List.append_assoc] at hpast
      exact ⟨hliteral, hblanks, ((hm.trans hliteral).trans hblanks).run⟩
    · intro hv
      rw [hv] at hstep
      exact (hm.trans hreach).run.trans (run_of_error hunfinished hstep)
  · intro depth read below c rest hmodes hrest hclose
    obtain ⟨bs, hl⟩ := lexing_of_modes hmodes
    have hdeep := hnested.deep c (by rw [hrest]; rfl)
    rw [hl] at hdeep
    rcases hdeep with hdeep | ⟨-, rfl | rfl⟩
    · exact hdeep
    · rcases hclose with h | h <;> cases h
    · rcases hclose with h | h <;> cases h

/-- A string holds brackets and a quote, and blanks stand on both sides; then the bracket of an array within another. -/
theorem json_literal_delimited_nested :
    let text := ['[', ' ', '"', ']', '\\', '"', '[', '"', ',', '\x7b', '"', 'a', '"', ':', '[', ']', '\x7d', ']']
    let v : Value := .array [.string "]\"[", .object [("a", .array [])]]
    let below : List Mode := [.operator, .filterEnd, .elementEnd, .path]
    let a := (((Assembly.empty.push .root).pushSelector (.root 0)).pushMark .union).openScope .filter
    let m : Machine :=
      ⟨[' '] ++ (text ++ [' ', ']']), Text.Position.start.afterAll ['$', '[', '?'], .operand :: below, a, 1⟩
    let n : Machine := ⟨[']'], Text.Position.start.afterAll ['$', '[', '?', '[', '['],
      .json 2 ['[', '['] :: below, a, 1⟩
    (Reaches (.standard []) (.start (String.ofList (['$', '[', '?'] ++ m.rest)).toList) m ∧ Blanks [' '] ∧
      IsJson .container text ∧ (Env.standard []).json? (String.ofList text) = some v ∧
      Reaches (.standard []) m ⟨[' ', ']'], m.position.afterAll ([' '] ++ text), below, a.push (.literal v), 1⟩) ∧
    Reaches (.standard []) (.start (String.ofList ['$', '[', '?', '[', '[', ']']).toList) n ∧ 0 < 2 := by
  intro text v below a m n
  have hblank : Blanks [' '] := List.forall_mem_singleton.2 rfl
  have hchars : StringChars [']', '\\', '"', '['] :=
    .char (by decide) (by decide) (by decide) (.short rfl (.char (by decide) (by decide) (by decide) .nil))
  have hname : StringChars ['a'] := .char (by decide) (by decide) (by decide) .nil
  have htext : IsJson .container text :=
    .array (.more (.element hblank (.string hchars) blanks_nil)
      (.last (IsJson.bare (.container (.object (.last (.member blanks_nil hname blanks_nil
        (IsJson.bare (.container (.emptyArray blanks_nil))))))))))
  have hvalue : (Env.standard []).json? (String.ofList text) = some v := by
    change Value.ofText? _ = _
    rw [Value.ofText?, String.toList_ofList]
    rfl
  have hm : Reaches (.standard []) (.start (String.ofList (['$', '[', '?'] ++ m.rest)).toList) m := by
    rw [String.toList_ofList]
    exact .step rfl (.step rfl (.step rfl (.refl _)))
  have hn : Reaches (.standard []) (.start (String.ofList ['$', '[', '?', '[', '[', ']']).toList) n := by
    rw [String.toList_ofList]
    exact .step rfl (.step rfl (.step rfl (.step rfl (.step rfl (.step rfl (.refl _))))))
  obtain ⟨hread, -⟩ := (json_literal_delimited (.standard []) _ m hm).1 below [' '] text [' '] [']'] rfl rfl hblank
    htext hblank
  refine ⟨⟨hm, hblank, htext, hvalue, (hread v hvalue).1⟩, hn, ?_⟩
  exact (json_literal_delimited (.standard []) _ n hn).2 2 _ below ']' [] rfl rfl (.inl rfl)

end Machine

end PathQuery
