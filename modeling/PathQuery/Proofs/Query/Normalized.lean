import PathQuery.Proofs.Flat
import PathQuery.Proofs.Query.Answers
import PathQuery.Standard

namespace PathQuery

open Eval Strategy
open Syntax (Integer QuotedText Segment Token pathSelectors pathTokens)

namespace Step

/-- The selector that goes on with a step. -/
def selector : Step → Selector
  | .index i => .index i
  | .name s => .member s

/-- An index in a query is a signed 64-bit integer; a name is any text. -/
def Writable : Step → Prop
  | .index i => fitsInt64 i = true
  | .name _ => True

/-- A step of a normalized path is a bracket list of one index or quoted name. -/
theorem exists_segment (env : Env) {s : Step} (hs : s.Writable) : ∃ segment : Segment env,
    (∀ k, segment.selectors k = [s.selector]) ∧ (∀ t ∈ segment.tokens, t.apart = false) ∧
      segment.tokens.flatMap Token.text = s.text.toList := by
  cases s with
  | index i =>
    obtain ⟨n, hn, ht⟩ := Integer.exists_repr hs
    refine ⟨.list (.index n) [], ?_, ?_, ?_⟩
    · intro k
      rw [Segment.selectors, Syntax.Element.branch, hn]
      rfl
    · simp [Segment.tokens, Syntax.Element.tokens, Syntax.othersTokens, Integer.token]
    · simp [Segment.tokens, Syntax.Element.tokens, Syntax.othersTokens, ht, text, Int.repr]
  | name name =>
    refine ⟨.list (.member (.quoted (.ofString name)) []) [], ?_, ?_, ?_⟩
    · intro k
      rw [Segment.selectors, Syntax.Element.branch, Syntax.ElementName.value, QuotedText.value_ofString]
      rfl
    · simp [Segment.tokens, Syntax.Element.tokens, Syntax.othersTokens, Syntax.ElementName.token, QuotedText.token,
        pathTokens]
    · simp [Segment.tokens, Syntax.Element.tokens, Syntax.othersTokens, Syntax.ElementName.token, pathTokens,
        QuotedText.text_ofString, text]

end Step

namespace Location

variable {env : Env} {l : Location}

def Writable (l : Location) : Prop := ∀ s ∈ l, s.Writable

theorem exists_path (env : Env) (hl : l.Writable) : ∃ path : List (Segment env),
    (∀ k, pathSelectors k path = l.map Step.selector) ∧ (∀ t ∈ pathTokens path, t.apart = false) ∧
      (pathTokens path).flatMap Token.text = l.flatMap fun s => s.text.toList := by
  induction l with
  | nil => exact ⟨[], fun _ => by simp [pathSelectors], by simp [pathTokens], by simp [pathTokens]⟩
  | cons s l ih =>
    obtain ⟨segment, hs, hapart, htext⟩ := Step.exists_segment env (hl s List.mem_cons_self)
    obtain ⟨path, hp, hapart', htext'⟩ := ih fun t ht => hl t (List.mem_cons_of_mem s ht)
    refine ⟨segment :: path, ?_, ?_, ?_⟩
    · intro k
      rw [pathSelectors, hs, hp]
      rfl
    · intro t ht
      rw [pathTokens] at ht
      rcases List.mem_append.1 ht with ht | ht
      · exact hapart t ht
      · exact hapart' t ht
    · rw [pathTokens, List.flatMap_append, htext, htext', List.flatMap_cons]

/-- A normalized path compiles to the steps of its location. -/
theorem compileWith_steps (hl : l.Writable) :
    Query.compileWith env l.text = .ok (.ofPath (l.map Step.selector)) := by
  obtain ⟨path, hp, hapart, htext⟩ := exists_path env.withLibrary hl
  rw [← hp 1]
  refine Query.compileWith_root hapart ?_
  rw [htext]
  simp [text, List.flatMap_map]

end Location

/-- Every array is so short that its indices are signed 64-bit integers. -/
def Value.Indexable : Value → Prop := Value.Everywhere fun v => v.elements.length < 0x8000000000000000

theorem fitsInt64_of_lt {i : Nat} (h : i < 0x8000000000000000) : fitsInt64 i = true := by
  simp only [fitsInt64, Bool.and_eq_true, decide_eq_true_eq]
  omega

theorem Location.writable_of_get? {l : Location} {doc v : Value} (hs : doc.Indexable)
    (h : Location.get? l doc = some v) : l.Writable := by
  intro s hm
  cases s with
  | index i => exact fitsInt64_of_lt (index_lt_of_get? hs h i hm)
  | name _ => trivial

theorem resolveIndex?_of_lt {i size : Nat} (h : i < size) : resolveIndex? i size = some i := by
  have hi : ¬(i : Int) < 0 := by omega
  simp [resolveIndex?, hi, h]

section evaluation

variable {t : Strategy} {s : Setting} {n : Node} {v : Value}

/-- A step to a child that exists is taken. -/
theorem follow_step (hk : s.keep = true) {step : Step} (h : step.child? n.value = some v) (go : Node → Eval Matches)
    (kind : Kind) : follow t s step.selector go kind n = go (n.child true step v) := by
  cases step with
  | index i =>
    have hi : n.value.elements[i]? = some v := h
    have hlt : i < n.value.elements.length := (List.getElem?_eq_some_iff.1 hi).1
    have hat : n.at? s.keep i = some (n.child true (.index i) v) := by
      rw [Node.at?, resolveIndex?_of_lt hlt, Option.bind_some, Node.element?, Value.element?, hi, hk]
      rfl
    rw [Step.selector, follow, hat]
    rfl
  | name name =>
    have hnamed : n.named? s.keep name = some (n.child true (.name name) v) := by
      cases hv : n.value with
      | object ms =>
        have hm : n.value.member? name = some v := h
        simp only [Node.named?, hv]
        rw [Node.member?, hm, hk]
        rfl
      | _ =>
        rw [hv] at h
        cases h
    rw [Step.selector, follow, hnamed]
    rfl

/-- The steps of a location lead to the node there. -/
theorem select_steps (hk : s.keep = true) {l : Location} (h : l.get? n.value = some v) :
    select t s (l.map Step.selector) n = pure ⟨[⟨n.location ++ l, v, n.computed⟩], .single⟩ := by
  induction l generalizing n with
  | nil =>
    cases h
    rw [List.map_nil, select, List.append_nil]
  | cons step l ih =>
    obtain ⟨w, hw, hl⟩ := Option.bind_eq_some_iff.1 h
    rw [List.map_cons, select, follow_step hk hw, ih hl]
    simp [Node.child, Location.child]

end evaluation

theorem Flags.arrange_singleton (f : Flags) (n : Node) : f.arrange [n] = [n] := by
  simp [arrange, sortNodes, dropRepeats, dropRepeatsOf, firstsBeside]

namespace Query

/-- A query has one match in a document, and this is a node of the document, whatever is asked for. -/
structure MatchesOnly (q : Query) (doc : Value) (l : Location) (v : Value) : Prop where
  exists_at : l.get? doc = some v
  evaluate : ∀ f, (q.evaluate f doc).result = .ok (.array [if f.wantsPaths then .string l.text else v])
  matchesOf : ∀ f, (q.matchesOf f doc).result = .ok [(l, v)]
  locations : (q.locations doc).result = .ok [l]
  documentLocations : (q.documentLocations doc).result = .ok [l]

variable {env : Env} {q : Query} {doc v : Value} {l : Location}

theorem matchesOnly_of_search (h : l.get? doc = some v) {kind : Kind}
    (hs : (q.search true doc).result = .ok ⟨[⟨l, v, false⟩], kind⟩) : q.MatchesOnly doc l v := by
  have hnodes : ∀ f : Flags, f.tracksLocations = true → (q.nodes f doc).result = .ok [⟨l, v, false⟩] := by
    intro f hf
    show (q.search f.tracksLocations doc).result.map _ = _
    rw [hf, hs]
    exact congrArg Except.ok (f.arrange_singleton _)
  have hmatches : ∀ f, (q.matchesOf f doc).result = .ok [(l, v)] := by
    intro f
    show (q.nodes (f.union .located) doc).result.map _ = _
    rw [hnodes _ f.tracksLocations_union_located]
    rfl
  refine ⟨h, ?_, hmatches, ?_, ?_⟩
  · intro f
    rw [evaluate_eq_map]
    show (q.matchesOf f doc).result.map _ = _
    rw [hmatches]
    rfl
  · show (q.nodes (Flags.distinct.union .ascending) doc).result.map _ = _
    rw [hnodes _ rfl]
    rfl
  · show (q.nodes (Flags.distinct.union .descending) doc).result.map _ = _
    rw [hnodes _ rfl]
    rfl

/-- The normalized path of a node is a query that matches just this node. -/
theorem matchesOnly_text (env : Env) (hs : doc.Indexable) (h : l.get? doc = some v) :
    ∃ q, compileWith env l.text = .ok q ∧ q.MatchesOnly doc l v :=
  ⟨_, Location.compileWith_steps (Location.writable_of_get? hs h),
    matchesOnly_of_search h (search_ofPath (select_steps rfl h))⟩

/-- Every normalized path is a query for its own node: it compiles, and it matches the node and nothing else, with any
flags. So are the names of the members of a flat document for the values of the members. -/
theorem normalized_paths_match (env : Env) (hs : doc.Indexable) :
    (∀ l v, Location.get? l doc = some v → ∃ q, compileWith env l.text = .ok q ∧ q.MatchesOnly doc l v) ∧
    (doc.Distinct → ∀ m ∈ doc.flatten.members, ∃ q l, compileWith env m.1 = .ok q ∧ l.text = m.1 ∧
      q.MatchesOnly doc l m.2) := by
  refine ⟨fun l v h => matchesOnly_text env hs h, ?_⟩
  intro hd m hm
  rw [Value.flatten_eq hd] at hm
  obtain ⟨e, he, rfl⟩ := List.mem_map.1 hm
  obtain ⟨q, hq, ho⟩ := matchesOnly_text env hs (Value.get?_of_mem_leaves hd e he)
  exact ⟨q, e.1, hq, rfl, ho⟩

/-- Names with a quote, of a length and of an index do not get in the way. -/
theorem normalized_paths_match_names :
    let doc : Value := .object [("it's", .object [("length", .array [.null, .string "b"]), ("0", .null)])]
    doc.Indexable ∧
      (∃ q, compileWith (.standard []) "$['it\\'s']['length'][1]" = .ok q ∧
        q.MatchesOnly doc [.name "it's", .name "length", .index 1] (.string "b")) ∧
      ∃ q l, compileWith (.standard []) "$['it\\'s']['0']" = .ok q ∧ l.text = "$['it\\'s']['0']" ∧
        q.MatchesOnly doc l .null := by
  intro doc
  have hs : doc.Indexable := by simp [doc, Value.Indexable, Value.elements]
  have hd : doc.Distinct := by simp [doc, Value.Distinct, Value.members, Members.names]
  obtain ⟨hlocations, hleaves⟩ := normalized_paths_match (.standard []) hs
  have htext : Location.text [.name "it's", .name "length", .index 1] = "$['it\\'s']['length'][1]" := by decide
  have hmember : (("$['it\\'s']['0']", .null) : String × Value) ∈ doc.flatten.members := by
    rw [Value.flatten_eq hd]
    exact List.mem_of_getElem? (i := 2) rfl
  refine ⟨hs, ?_, hleaves hd _ hmember⟩
  rw [← htext]
  exact hlocations _ _ rfl

end Query

end PathQuery
