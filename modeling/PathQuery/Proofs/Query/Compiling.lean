import PathQuery.Proofs.Except
import PathQuery.Proofs.Json.Integers
import PathQuery.Proofs.Query.Parsing
import PathQuery.Query.Answer
import PathQuery.Standard

namespace PathQuery.Syntax

variable {env : Env}

theorem leads_startRoot {ts : List Token} {a : Assembly} {k : Nat} :
    Leads env ⟨.char '$' :: ts, [.start], a, k⟩ ⟨ts, [.path], (a.push .root).withPath [.root k], k + 1⟩ :=
  .char rfl fun _ position => ⟨position.after '$', rfl⟩

/-- Behind the path of the whole query, the query is read. -/
theorem gives_end {first : Instr} (hf : first.operands = 0) (steps : List Selector) (k : Nat) :
    Config.Gives env ⟨[], [.path], (Assembly.empty.push first).withPath steps, k⟩ (.ok [first, .path steps]) := by
  intro blanks text hb ht
  cases ht
  refine (comes_blanks rfl hb).gives ?_
  intro position
  rw [Stage.at, Machine.run, if_pos]
  · rw [Assembly.finish_withPath hf]
    rfl
  · rfl

/-- The rest of a query, behind the root or a call. -/
theorem gives_path {first : Instr} (hf : first.operands = 0) (path : List (Segment env)) (steps : List Selector)
    (k : Nat) : Config.Gives env ⟨pathTokens path, [.path], (Assembly.empty.push first).withPath steps, k⟩
      (.ok [first, .path (steps ++ pathSelectors k path)]) := by
  have hpath : Leads env ⟨pathTokens path ++ [], [.path], (Assembly.empty.push first).withPath steps, k⟩
      ⟨[], [.path], (Assembly.empty.push first).withPath (steps ++ pathSelectors k path), k + pathRoots path⟩ :=
    pathReads path .path nofun
  rw [List.append_nil] at hpath
  exact hpath.gives (gives_end hf _ _)

namespace Source

theorem gives (q : Source env) : Config.Gives env ⟨q.tokens, [.start], .empty, 0⟩ (.ok q.program) := by
  cases q with
  | root path => exact leads_startRoot.gives (gives_path rfl path _ _)
  | call f arguments h path =>
    exact ((leads_queryCall f).trans (arguments.reads.all h)).gives (gives_path rfl path _ _)

/-- The program of a text of the query. -/
theorem ofText {q : Source env} {text : String} (h : q.IsText text) : Program.ofText env text = .ok q.program := by
  obtain ⟨blanks, body, hb, hw, ht⟩ := h
  rw [Program.ofText, Machine.start, ht]
  exact mapError_eq_ok (q.gives blanks body hb hw .start)

end Source

/-- `[1,\x7b"a":"]"\x7d]` -/
def sampleArray : JsonText (Env.standard []).withLibrary where
  first := '['
  others := ['1', ',', '\x7b', '"', 'a', '"', ':', '"', ']', '"', '\x7d', ']']
  container :=
    have hone : IsJson .element ['1'] :=
      .bare (.number (.mk ⟨List.cons_ne_nil '1' [], List.all_eq_true.1 rfl⟩ nofun .none .none))
    have hvalue : IsJson .element ['"', ']', '"'] := .bare (.string (.char (c := ']') nofun nofun (by decide) .nil))
    have hmember : IsJson .member ['"', 'a', '"', ':', '"', ']', '"'] :=
      .member blanks_nil (.char (c := 'a') nofun nofun (by decide) .nil) blanks_nil hvalue
    have hobject : IsJson .element ['\x7b', '"', 'a', '"', ':', '"', ']', '"', '\x7d'] :=
      .bare (.container (.object (.last hmember)))
    .array (.more hone (.last hobject))
  value := .array [.ofInt 1, .object [("a", .string "]")]]
  reads := rfl

/-- `/x\//i` -/
def samplePattern : PatternText (Env.standard []).withLibrary :=
  ⟨['x', '\\', '/'], ['x', '/'], .char (by decide) (by decide) (.slash .nil), true, _, rfl⟩

/-- `!@.n == 12 || @.s =~ /x\//i && @ != [1,\x7b"a":"]"\x7d] || @ < length($)` -/
def sampleTest : Phrase (Env.standard []).withLibrary (Primary (Env.standard []).withLibrary) :=
  .prefixed .not <| .operand (.current [.member (.bare ⟨'n', [], plain_of_all (by decide)⟩)]) <|
    .binary .eq <| .operand (.literal (.integer Readers.standard_readsIntegers 12 rfl)) <|
    .binary .or <| .operand (.current [.member (.bare ⟨'s', [], plain_of_all (by decide)⟩)]) <|
    .likes samplePattern <|
    .binary .and <| .operand (.current []) <|
    .binary .ne <| .operand (.literal (.json sampleArray)) <|
    .binary .or <| .operand (.current []) <|
    .binary .lt <| .operand
      (.call ⟨⟨'l', ['e', 'n', 'g', 't', 'h'], plain_of_all (by decide)⟩, by decide,
          Library.unary "length" Library.length, rfl⟩
        (.cons (.operand (.root []) .done) .nil) rfl [])
      .done

/-- `$..'a\''[?!@.n == 12 || @.s =~ /x\//i && @ != [1,\x7b"a":"]"\x7d] || @ < length($),-1:]` -/
def sample : Source (Env.standard []).withLibrary :=
  .root [
    .deepMember (.quoted ⟨'\'', .inl rfl, ['a', '\\', '\''], ['a', '\''],
      .char (by decide) (by decide) (.escape (.short rfl) .nil)⟩),
    .list (.filter sampleTest)
      [.slice ⟨some ⟨'-', ['1'], .inl rfl, List.all_eq_true.1 rfl, -1, by decide⟩, none, none, nofun⟩]]

end PathQuery.Syntax

namespace PathQuery.Query

theorem compileWith_of_isText {env : Env} {q : Syntax.Source env.withLibrary} {text : String}
    (h : q.IsText text) : compileWith env text = .ok ⟨q.program⟩ := by
  rw [compileWith, Syntax.Source.ofText h]
  rfl

/-- Compiling undoes writing: each text of a query compiles to the program that the query stands for. -/
theorem compileWith_text {env : Env} (q : Syntax.Source env.withLibrary) :
    compileWith env q.text = .ok ⟨q.program⟩ ∧ ∀ text, q.IsText text → compileWith env text = .ok ⟨q.program⟩ :=
  ⟨compileWith_of_isText q.isText_text, fun _ => compileWith_of_isText⟩

theorem compileWith_text_sample :
    ∃ p, (Env.standard []).pattern "x/" true = .ok p ∧ compileWith (.standard [])
        "$..'a\\''[?!@.n == 12 || @.s =~ /x\\//i && @ != [1,\x7b\"a\":\"]\"\x7d] || @ < length($),-1:]" =
      .ok ⟨[.root, .path [.root 0, .descend, .member "a'", .union [
        [.current, .path [.filter [
          .current, .path [.current, .member "n"], .unary .not, .literal (.ofInt 12), .binary .eq,
          .current, .path [.current, .member "s"], .unary (.likes p),
          .current, .path [.current], .literal (.array [.ofInt 1, .object [("a", .string "]")]]), .binary .ne,
          .binary .and, .binary .or,
          .current, .path [.current],
          .current, .path [.call (Library.unary "length" Library.length) [[.root, .path [.root 1]]]],
          .binary .lt, .binary .or]]],
        [.current, .path [.slice ⟨some (-1), none, 1⟩]]]]]⟩ :=
  ⟨_, rfl, (compileWith_text Syntax.sample).1⟩

end PathQuery.Query
