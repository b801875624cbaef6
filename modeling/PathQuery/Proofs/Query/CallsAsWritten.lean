import PathQuery.Proofs.Query.CallTexts
import PathQuery.Query.Edit
import PathQuery.Standard

namespace PathQuery

namespace Function

variable {env : Env} {fs gs : List Function} {name : String} {f : Function}

theorem find?_append (gs fs : List Function) (name : String) :
    find? name (gs ++ fs) = (find? name fs).or (find? name gs) := by
  rw [find?, List.reverse_append, List.find?_append]
  rfl

theorem mem_of_find? (h : find? name fs = some f) : f ∈ fs :=
  List.mem_reverse.1 (List.mem_of_find?_eq_some h)

theorem find?_eq_none : find? name fs = none ↔ ∀ f ∈ fs, f.name ≠ name := by
  simp [find?]

/-- What a name in a query stands for: the function that was listed last under it, and a built-in one only if none
was. -/
inductive Resolves (env : Env) (name : String) (f : Function) : Prop
  | listed (found : find? name env.functions = some f)
  | builtin (unlisted : ∀ g ∈ env.functions, g.name ≠ name)
      (found : find? name (Library.functions env.toReaders) = some f)

theorem resolves_iff : Resolves env name f ↔ find? name env.withLibrary.functions = some f := by
  rw [Env.withLibrary_functions, find?_append]
  constructor
  · rintro (hf | ⟨hne, hf⟩)
    · rw [hf, Option.some_or]
    · rw [find?_eq_none.2 hne, Option.none_or, hf]
  · intro h
    cases hf : find? name env.functions with
    | some g =>
      rw [hf, Option.some_or] at h
      exact .listed (hf.trans h)
    | none =>
      rw [hf, Option.none_or] at h
      exact .builtin (find?_eq_none.1 hf) h

theorem length_of_accepts {k n : Nat} (ha : f.accepts n = true) (hk : f.arity = some k) : n = k := by
  rw [accepts, hk, Option.all_some] at ha
  exact (eq_of_beq ha).symm

end Function

namespace Library

/-- A built-in function with as many values as it looks at. -/
inductive Within : Call → Prop
  | one (name : String) (f : Value → Result) (v : Value) : Within ⟨unary name f, [v]⟩
  | two (name : String) (f : Value → Value → Result) (v w : Value) : Within ⟨binary name f, [v, w]⟩

variable {r : Readers} {f : Function}

theorem functions_cases (h : f ∈ functions r) :
    (∃ name g, f = unary name g) ∨ ∃ name g, f = binary name g := by
  simp only [functions, List.mem_cons, List.not_mem_nil, or_false] at h
  rcases h with rfl | rfl | rfl | rfl | rfl | rfl | rfl | rfl | rfl | rfl | rfl | rfl | rfl | rfl | rfl
  all_goals first | exact .inl ⟨_, _, rfl⟩ | exact .inr ⟨_, _, rfl⟩

theorem within_of_accepts {values : List Value} (h : f ∈ functions r)
    (ha : f.accepts values.length = true) : Within ⟨f, values⟩ := by
  obtain ⟨name, g, rfl⟩ | ⟨name, g, rfl⟩ := functions_cases h
  · obtain ⟨v, rfl⟩ := List.length_eq_one_iff.1 (Function.length_of_accepts ha rfl)
    exact .one name g v
  · obtain ⟨v, w, rfl⟩ := List.length_eq_two.1 (Function.length_of_accepts ha rfl)
    exact .two name g v w

end Library

/-- The call that is written is the one that is made: its function is called, and each of its arguments gives the value
that stands in its place, at one node. -/
structure WrittenCall.IsMade (env : Env) (s : Setting) (w : WrittenCall) (c : Call) : Prop where
  resolves : Function.Resolves env w.name c.function
  accepts : c.function.accepts w.arguments.length = true
  values : ∃ n, List.Forall₂ (fun text v => ∃ p : Program, p.IsOfText env.withLibrary text ∧ p.Gives s n v)
    w.arguments c.arguments

theorem forall₂_comp {α β γ : Type} {R : α → β → Prop} {S : β → γ → Prop} {as : List α} {bs : List β} {cs : List γ}
    (h : List.Forall₂ R as bs) (h' : List.Forall₂ S bs cs) : List.Forall₂ (fun a c => ∃ b, R a b ∧ S b c) as cs := by
  induction h generalizing cs with
  | nil =>
    cases h'
    exact .nil
  | cons hr _ ih =>
    cases h' with
    | cons hs h' => exact .cons ⟨_, hr, hs⟩ (ih h')

theorem forall₂_mem_right {α β : Type} {R : α → β → Prop} {as : List α} {bs : List β} (h : List.Forall₂ R as bs)
    {b : β} (hb : b ∈ bs) : ∃ a ∈ as, R a b := by
  induction h with
  | nil => cases hb
  | cons hr _ ih =>
    rcases List.mem_cons.1 hb with rfl | hb
    · exact ⟨_, List.mem_cons_self, hr⟩
    · obtain ⟨a, ha, hr⟩ := ih hb
      exact ⟨a, List.mem_cons_of_mem _ ha, hr⟩

theorem forall₂_mem_left {α β : Type} {R : α → β → Prop} {as : List α} {bs : List β} (h : List.Forall₂ R as bs)
    {a : α} (ha : a ∈ as) : ∃ b ∈ bs, R a b :=
  forall₂_mem_right (List.Forall₂.flip (R := flip R) h) ha

namespace WrittenCall

variable {env : Env} {w : WrittenCall}

theorem Compiles.isMade {f : Function} {ps : List Program} (h : w.Compiles env.withLibrary ⟨f, ps⟩)
    {s : Setting} {n : Node} {values : List Value} (hv : List.Forall₂ (Program.Gives s n) ps values) :
    w.IsMade env s ⟨f, values⟩ :=
  ⟨Function.resolves_iff.2 h.found, h.accepts, n, forall₂_comp h.arguments hv⟩

theorem IsMade.accepted {s : Setting} {c : Call} (h : w.IsMade env s c) :
    c.function.accepts c.arguments.length = true := by
  obtain ⟨n, hv⟩ := h.values
  rw [← hv.length_eq]
  exact h.accepts

end WrittenCall

namespace Query

variable {env : Env} {text : String} {q : Query} {doc : Value} {c : Call}

/-- A call that is made against a document, whatever a query is evaluated for. -/
inductive MakesCall (q : Query) (doc : Value) (c : Call) : Prop
  | search (keep : Bool) (h : c ∈ (q.search keep doc).calls)
  | nodes (f : Flags) (h : c ∈ (q.nodes f doc).calls)
  | evaluate (f : Flags) (h : c ∈ (q.evaluate f doc).calls)
  | matchesOf (f : Flags) (h : c ∈ (q.matchesOf f doc).calls)
  | locations (h : c ∈ (q.locations doc).calls)
  | documentLocations (h : c ∈ (q.documentLocations doc).calls)
  | update (f : Location → Value → Value) (h : c ∈ (q.update f doc).calls)
  | remove (h : c ∈ (q.remove doc).calls)

theorem MakesCall.exists_search (h : q.MakesCall doc c) : ∃ keep, c ∈ (q.search keep doc).calls := by
  rcases h with ⟨keep, h⟩ | ⟨f, h⟩ | ⟨f, h⟩ | ⟨f, h⟩ | h | h | ⟨f, h⟩ | h
  all_goals exact ⟨_, h⟩

theorem compiled_calls (h : compileWith env text = .ok q) :
    List.Forall₂ (WrittenCall.Compiles env.withLibrary) (writtenCalls text) q.program.callNodes := by
  obtain ⟨p, hp, rfl⟩ := map_eq_ok h
  exact Program.ofText_calls hp

theorem made_calls (h : compileWith env text = .ok q) (hc : q.MakesCall doc c) :
    ∃ w ∈ writtenCalls text, ∃ keep, w.IsMade env ⟨doc, keep⟩ c := by
  obtain ⟨keep, hc⟩ := hc.exists_search
  obtain ⟨ps, n, hm, hv⟩ := search_calls_isOf h keep doc c hc
  obtain ⟨w, hw, hcompiles⟩ := forall₂_mem_right (compiled_calls h) hm
  exact ⟨w, hw, keep, hcompiles.isMade hv⟩

theorem refused_calls {w : WrittenCall} {f : Function} {k : Nat} (hw : w ∈ writtenCalls text)
    (hf : Function.Resolves env w.name f) (hk : f.arity = some k) (hne : w.arguments.length ≠ k) :
    ∃ e, compileWith env text = .error e := by
  cases hq : compileWith env text with
  | error e => exact ⟨e, rfl⟩
  | ok q =>
    obtain ⟨c, -, hc⟩ := forall₂_mem_left (compiled_calls hq) hw
    obtain rfl : f = c.function := Option.some.inj ((Function.resolves_iff.1 hf).symm.trans hc.found)
    exact absurd (Function.length_of_accepts hc.accepts hk) hne

/-- The calls of a compiled query are those that are written in its text, and every call that is made is one of them: it
goes to the function that is listed under its name, or else to the built-in one, and gets one value for each argument
that is written, in their order, as many as the function takes. So no built-in function misses one. A text with a call
that has another number of arguments is refused. -/
theorem calls_as_written (env : Env) (text : String) :
    (∀ q, compileWith env text = .ok q →
      List.Forall₂ (WrittenCall.Compiles env.withLibrary) (writtenCalls text) q.program.callNodes ∧
      ∀ doc c, q.MakesCall doc c →
        (∃ w ∈ writtenCalls text, ∃ keep, w.IsMade env ⟨doc, keep⟩ c) ∧
        (∀ k, c.function.arity = some k → c.arguments.length = k) ∧
        (c.function ∈ Library.functions env.toReaders → Library.Within c)) ∧
    ∀ w ∈ writtenCalls text, ∀ f k, Function.Resolves env w.name f → f.arity = some k → w.arguments.length ≠ k →
      ∃ e, compileWith env text = .error e := by
  constructor
  · intro q hq
    refine ⟨compiled_calls hq, ?_⟩
    intro doc c hc
    obtain ⟨w, hw, keep, hmade⟩ := made_calls hq hc
    exact ⟨⟨w, hw, keep, hmade⟩, fun _ => Function.length_of_accepts hmade.accepted,
      fun hf => Library.within_of_accepts hf hmade.accepted⟩
  · intro w hw f k hf hk hne
    exact refused_calls hw hf hk hne

/-- A function of two arguments that is listed as `max` is called in place of the built-in one, which takes one. -/
theorem calls_as_written_shadowed :
    let first := Library.binary "max" fun v _ => .ok v
    let keys := Library.unary "keys" Library.keys
    let doc : Value := .array [.object [("a", .bool true)]]
    (∃ q, compileWith (.standard [first]) "$[?max(@.b, max(keys(@), @.a))]" = .ok q ∧
      writtenCalls "$[?max(@.b, max(keys(@), @.a))]" =
        [⟨"keys", ["@"]⟩, ⟨"max", ["keys(@)", " @.a"]⟩, ⟨"max", ["@.b", " max(keys(@), @.a)"]⟩] ∧
      (q.evaluate .plain doc).calls = [⟨keys, [.object [("a", .bool true)]]⟩,
        ⟨first, [.array [.string "a"], .bool true]⟩, ⟨first, [.null, .array [.string "a"]]⟩] ∧
      (∃ w ∈ writtenCalls "$[?max(@.b, max(keys(@), @.a))]", ∃ keep,
        w.IsMade (.standard [first]) ⟨doc, keep⟩ ⟨first, [.null, .array [.string "a"]]⟩) ∧
      Library.Within ⟨keys, [.object [("a", .bool true)]]⟩) ∧
    ∃ e, compileWith (.standard [first]) "$[?max(@)]" = .error e := by
  intro first keys doc
  have hq : compileWith (.standard [first]) "$[?max(@.b, max(keys(@), @.a))]" = .ok
      ⟨[.root, .path [.root 0, .filter [.current, .path [.call first [[.current, .path [.current, .member "b"]],
        [.current, .path [.call first [[.current, .path [.call keys [[.current, .path [.current]]]]],
        [.current, .path [.current, .member "a"]]]]]]]]]]⟩ :=
    compileWith_of_runFor (k := 60) rfl
  obtain ⟨-, hmade⟩ := (calls_as_written (.standard [first]) "$[?max(@.b, max(keys(@), @.a))]").1 _ hq
  have hrefused := (calls_as_written (.standard [first]) "$[?max(@)]").2 ⟨"max", ["@"]⟩ (by decide +kernel) first 2
    (.listed rfl) rfl (by decide)
  refine ⟨⟨_, hq, by decide +kernel, rfl, (hmade doc _ (.evaluate .plain ?_)).1,
    (hmade doc _ (.evaluate .plain ?_)).2.2 (by simp [Library.functions, keys])⟩, hrefused⟩
  · exact List.mem_of_getLast? rfl
  · exact List.mem_of_mem_head? rfl

end Query

end PathQuery
