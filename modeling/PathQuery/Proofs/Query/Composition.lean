import PathQuery.Proofs.Query.Grafted
import PathQuery.Proofs.Query.Normalized
import PathQuery.Proofs.Query.Threads
import PathQuery.Standard

namespace PathQuery

open Eval Strategy
open Syntax (Anchor)

theorem Syntax.Anchor.isAnchor (anchor : Anchor) : anchor.instr.IsAnchor := by
  cases anchor
  · exact .root
  · exact .current

theorem each_map {α β γ : Type} {R : α → List β → Prop} (g : β → γ) {as : List α} {cs : List γ} :
    Each (fun a cs => ∃ bs, R a bs ∧ cs = bs.map g) as cs ↔ ∃ bs, Each R as bs ∧ cs = bs.map g := by
  have hg : ∀ (bs : List β) (cs : List γ), Each (fun b cs => cs = [g b]) bs cs ↔ cs = bs.map g := by
    intro bs
    induction bs with
    | nil => simp [each_nil]
    | cons b bs ih => simp [each_cons, ih]
  simp only [← hg]
  exact each_each

namespace Eval

theorem Finds.unique {x : Eval Matches} {ns ns' : List Node} (h : Finds x ns) (h' : Finds x ns') : ns = ns' := by
  obtain ⟨kind, h⟩ := h
  obtain ⟨kind', h'⟩ := h'
  have he := (h .empty).symm.trans (h' .empty)
  cases he
  rfl

theorem Steady.finds_iff {x : Eval Matches} (hx : Steady x) {ns : List Node} :
    Finds x ns ↔ ∃ kind, resultIn .empty x = .ok ⟨ns, kind⟩ := by
  constructor
  · rintro ⟨kind, h⟩
    exact ⟨kind, h .empty⟩
  · rintro ⟨kind, h⟩
    exact ⟨kind, hx.returns h⟩

end Eval

namespace Query

variable {env : Env} {text : String} {doc : Value} {first : Instr} {path : List Selector}

/-- The nodes that a query matches are those that its path finds from the root when every path is taken anew. -/
theorem search_iff_finds (hf : first.IsAnchor) (h : compileWith env text = .ok ⟨[first, .path path]⟩) {ns : List Node} :
    (∃ kind, (search ⟨[first, .path path]⟩ true doc).result = .ok ⟨ns, kind⟩) ↔
      Finds (select .anew ⟨doc, true⟩ path (.root doc)) ns := by
  have hresult : (searchBy .anew ⟨[first, .path path]⟩ true doc).result =
      resultIn .empty (PathQuery.evaluate .anew ⟨doc, true⟩ [first, .path path] (.root doc)) := rfl
  rw [search_eq_searchBy_anew h, hresult, evaluate_path (s := ⟨doc, true⟩) hf,
    (select_steady direct_anew path _).finds_iff]

theorem nodes_iff_finds (hf : first.IsAnchor) (h : compileWith env text = .ok ⟨[first, .path path]⟩) {ns : List Node} :
    (nodes ⟨[first, .path path]⟩ .located doc).result = .ok ns ↔
      Finds (select .anew ⟨doc, true⟩ path (.root doc)) ns := by
  rw [← search_iff_finds hf h]
  show ((search ⟨[first, .path path]⟩ true doc).result.map fun m => m.nodes) = .ok ns ↔ _
  constructor
  · intro hn
    obtain ⟨m, hm, rfl⟩ := map_eq_ok hn
    exact ⟨m.kind, hm⟩
  · rintro ⟨kind, hm⟩
    rw [hm]
    rfl

theorem matchesOf_iff_finds (hf : first.IsAnchor) (h : compileWith env text = .ok ⟨[first, .path path]⟩)
    {ms : List (Location × Value)} : (matchesOf ⟨[first, .path path]⟩ .plain doc).result = .ok ms ↔
      ∃ ns, Finds (select .anew ⟨doc, true⟩ path (.root doc)) ns ∧ ms = ns.map fun n => (n.location, n.value) := by
  simp only [← nodes_iff_finds hf h]
  show ((nodes _ .located doc).result.map _) = .ok ms ↔ _
  constructor
  · intro hm
    obtain ⟨ns, hns, rfl⟩ := map_eq_ok hm
    exact ⟨ns, hns, rfl⟩
  · rintro ⟨ns, hns, rfl⟩
    rw [hns]
    rfl

/-- A query is a starting point with a path, and a text that goes on with a path adds steps to it. -/
theorem compileWith_append {p q : Query} {suffix : String} (hp : compileWith env text = .ok p)
    (hs : GoesOn suffix.toList) (hq : compileWith env (text ++ suffix) = .ok q) :
    ∃ steps, Machine.AddsSteps env.withLibrary suffix.toList steps := by
  obtain ⟨program, hprogram, -⟩ := map_eq_ok hp
  obtain ⟨anchor, path, k, position, -, -, happend⟩ := Program.ofText_append hprogram
  obtain ⟨longer, hlonger, -⟩ := map_eq_ok hq
  rw [happend suffix hs] at hlonger
  exact Machine.exists_addsSteps hlonger

/-- The steps that a text adds to the path of a query. -/
theorem compileWith_of_addsSteps {p : Query} {suffix : String} {steps : List Selector}
    (hp : compileWith env text = .ok p) (hs : GoesOn suffix.toList)
    (hsteps : Machine.AddsSteps env.withLibrary suffix.toList steps) :
    ∃ (first : Instr) (path : List Selector) (k : Nat), first.IsAnchor ∧ p = ⟨[first, .path path]⟩ ∧
      pathOccurrences path = List.range k ∧
      compileWith env (text ++ suffix) = .ok ⟨[first, .path (path ++ renumberPath (k + ·) steps)]⟩ := by
  obtain ⟨program, hprogram, rfl⟩ := map_eq_ok hp
  obtain ⟨anchor, path, k, position, rfl, hk, happend⟩ := Program.ofText_append hprogram
  refine ⟨anchor.instr, path, k, anchor.isAnchor, rfl, hk, ?_⟩
  rw [compileWith, happend suffix hs, hsteps]
  rfl

end Query

namespace Location

variable {env : Env} {l : Location} {doc v : Value}

theorem pathOccurrences_steps (l : Location) : pathOccurrences (.root 0 :: l.map Step.selector) = [0] := by
  have hl : pathOccurrences (l.map Step.selector) = [] := by
    induction l with
    | nil => exact pathOccurrences_nil
    | cons s l ih =>
      have hs : s.selector.Simple := by
        cases s
        · exact .index _
        · exact .member _
      rw [List.map_cons, ← List.singleton_append, pathOccurrences_append, ih, pathOccurrences_of_simple hs]
      rfl
  rw [← List.singleton_append, pathOccurrences_append, hl]
  simp [pathOccurrences, pathChains, Selector.chains]

/-- A normalized path with a suffix. -/
theorem compileWith_append (hl : l.Writable) {suffix : String} (hs : GoesOn suffix.toList) {steps : List Selector}
    (hsteps : Machine.AddsSteps env.withLibrary suffix.toList steps) :
    Query.compileWith env (l.text ++ suffix) =
      .ok (.ofPath (l.map Step.selector ++ renumberPath (1 + ·) steps)) := by
  obtain ⟨first, path, k, -, hp, hk, hc⟩ := Query.compileWith_of_addsSteps (compileWith_steps hl) hs hsteps
  cases hp
  rw [pathOccurrences_steps] at hk
  obtain rfl : k = 1 := by simpa using (congrArg List.length hk).symm
  exact hc

/-- The steps of a location find the node there. -/
theorem finds_steps (h : l.get? doc = some v) {ns : List Node} :
    Finds (select .anew ⟨doc, true⟩ (.root 0 :: l.map Step.selector) (.root doc)) ns ↔ ns = [⟨l, v, false⟩] := by
  have hsteps := @select_steps .anew ⟨doc, true⟩ (.root doc) v rfl l h
  rw [select, follow, hsteps, (direct_anew.same_path steady_pure 0).finds_iff, finds_pure]
  rfl

end Location

namespace Query

variable {env : Env} {text suffix : String} {p q : Query} {doc : Value}

/-- Where a query matches parts of the document, a suffix behind the query matches what it matches behind the normalized
path of each of them: for every match there is a query, and the matches are those of the queries one after the
other. -/
theorem paths_compose (hp : compileWith env text = .ok p) (hs : GoesOn suffix.toList)
    (hq : compileWith env (text ++ suffix) = .ok q) (hd : doc.Distinct) (hi : doc.Indexable) {ns : List Node}
    (hns : (p.nodes .located doc).result = .ok ns) (hc : ∀ n ∈ ns, n.computed = false) :
    ∃ r : Location → Query, (∀ n ∈ ns, compileWith env (n.location.text ++ suffix) = .ok (r n.location)) ∧
      ∀ ms, (q.matchesOf .plain doc).result = .ok ms ↔
        ∃ parts, List.Forall₂ (fun n part => ((r n.location).matchesOf .plain doc).result = .ok part) ns parts ∧
          ms = parts.flatten := by
  obtain ⟨steps, hsteps⟩ := compileWith_append hp hs hq
  obtain ⟨first, path, k, hf, rfl, -, hcompile⟩ := compileWith_of_addsSteps hp hs hsteps
  obtain rfl : q = ⟨[first, .path (path ++ renumberPath (k + ·) steps)]⟩ := by
    rw [hcompile] at hq
    exact (Except.ok.inj hq).symm
  have hfinds := (nodes_iff_finds hf hp).1 hns
  have hstand : ∀ n ∈ ns, n.location.get? doc = some n.value := by
    obtain ⟨kind, hm⟩ := (search_iff_finds hf hp).2 hfinds
    exact fun n hn => search_stand hp hd hm n hn (hc n hn)
  have hlocation : ∀ n ∈ ns, compileWith env (n.location.text ++ suffix) =
      .ok (.ofPath (n.location.map Step.selector ++ renumberPath (1 + ·) steps)) :=
    fun n hn => Location.compileWith_append (Location.writable_of_get? hi (hstand n hn)) hs hsteps
  refine ⟨fun l => .ofPath (l.map Step.selector ++ renumberPath (1 + ·) steps), hlocation, ?_⟩
  -- the suffix finds the same from a match, whatever numbers its occurrences of the root have
  have hsame : ∀ (j : Nat) (n : Node) (ys : List Node),
      Finds (select .anew ⟨doc, true⟩ (renumberPath (j + ·) steps) n) ys ↔
        Finds (select .anew ⟨doc, true⟩ steps n) ys :=
    fun j n ys => (select_renumber_same direct_anew _ steps n).finds_iff
  have hpart : ∀ n ∈ ns, ∀ part : List (Location × Value),
      ((ofPath (n.location.map Step.selector ++ renumberPath (1 + ·) steps)).matchesOf .plain doc).result = .ok part ↔
        ∃ ys, Finds (select .anew ⟨doc, true⟩ steps n) ys ∧ part = ys.map fun y => (y.location, y.value) := by
    intro n hn part
    have hnode : (⟨n.location, n.value, false⟩ : Node) = n := by rw [← hc n hn]
    rw [ofPath, matchesOf_iff_finds .root (hlocation n hn), ← List.cons_append]
    simp only [finds_select_append direct_anew, Location.finds_steps (hstand n hn), hnode, hsame, exists_eq_left,
      each_singleton]
  intro ms
  rw [matchesOf_iff_finds hf hq, ← each_iff_forall₂, each_congr hpart, each_map]
  constructor
  · rintro ⟨all, hall, rfl⟩
    obtain ⟨ks, hks, heach⟩ := (finds_select_append direct_anew path _ _).1 hall
    obtain rfl := hks.unique hfinds
    simp only [hsame] at heach
    exact ⟨all, heach, rfl⟩
  · rintro ⟨all, heach, rfl⟩
    refine ⟨all, (finds_select_append direct_anew path _ _).2 ⟨ns, hfinds, ?_⟩, rfl⟩
    simpa only [hsame] using heach

/-- Both the query and its suffix reach the root in the middle of their paths. -/
theorem paths_compose_union :
    let doc : Value := .object [("a", .array [.array [.null], .array [.string "b"]]), ("k", .bool true)]
    ∃ p q, compileWith (.standard []) "$.a[?$.k]" = .ok p ∧ compileWith (.standard []) "$.a[?$.k][0,$.k]" = .ok q ∧
      (p.matchesOf .plain doc).result =
        .ok [([.name "a", .index 0], .array [.null]), ([.name "a", .index 1], .array [.string "b"])] ∧
      ∃ r r' part part', compileWith (.standard []) "$['a'][0][0,$.k]" = .ok r ∧
        compileWith (.standard []) "$['a'][1][0,$.k]" = .ok r' ∧
        (r.matchesOf .plain doc).result = .ok part ∧ (r'.matchesOf .plain doc).result = .ok part' ∧
        (q.matchesOf .plain doc).result = .ok (part ++ part') ∧ (part ++ part').map (·.1) =
          [[.name "a", .index 0, .index 0], [.name "k"], [.name "a", .index 1, .index 0], [.name "k"]] := by
  intro doc
  have hp : compileWith (.standard []) "$.a[?$.k]" =
      .ok ⟨[.root, .path [.root 0, .member "a", .filter [.root, .path [.root 1, .member "k"]]]]⟩ :=
    compileWith_of_runFor (k := 40) rfl
  have hq : compileWith (.standard []) "$.a[?$.k][0,$.k]" =
      .ok ⟨[.root, .path [.root 0, .member "a", .filter [.root, .path [.root 1, .member "k"]],
        .union [[.current, .path [.index 0]], [.root, .path [.root 2, .member "k"]]]]]⟩ :=
    compileWith_of_runFor (k := 60) rfl
  have hd : doc.Distinct := by simp [doc, Value.Distinct, Value.members, Members.names]
  have hi : doc.Indexable := by simp [doc, Value.Indexable, Value.elements]
  have hs : GoesOn "[0,$.k]".toList := ⟨'[', _, rfl, .inr rfl⟩
  have hns : (nodes ⟨[.root, .path [.root 0, .member "a", .filter [.root, .path [.root 1, .member "k"]]]]⟩ .located
      doc).result = .ok [⟨[.name "a", .index 0], .array [.null], false⟩,
        ⟨[.name "a", .index 1], .array [.string "b"], false⟩] := rfl
  have htext : "$.a[?$.k]" ++ "[0,$.k]" = "$.a[?$.k][0,$.k]" := by decide
  obtain ⟨r, hr, h⟩ := paths_compose hp hs (htext ▸ hq) hd hi hns (by simp)
  have htext₀ : Location.text [.name "a", .index 0] ++ "[0,$.k]" = "$['a'][0][0,$.k]" := by decide
  have htext₁ : Location.text [.name "a", .index 1] ++ "[0,$.k]" = "$['a'][1][0,$.k]" := by decide
  have hms : (matchesOf ⟨[.root, .path [.root 0, .member "a", .filter [.root, .path [.root 1, .member "k"]],
      .union [[.current, .path [.index 0]], [.root, .path [.root 2, .member "k"]]]]]⟩ .plain doc).result =
      .ok [([.name "a", .index 0, .index 0], .null), ([.name "k"], .bool true),
        ([.name "a", .index 1, .index 0], .string "b"), ([.name "k"], .bool true)] := rfl
  obtain ⟨parts, hparts, hfound⟩ := (h _).1 hms
  obtain ⟨part, _, hpart, hrest, rfl⟩ := List.forall₂_cons_left_iff.1 hparts
  obtain ⟨part', _, hpart', hnil, rfl⟩ := List.forall₂_cons_left_iff.1 hrest
  cases hnil
  rw [List.flatten_cons, List.flatten_cons, List.flatten_nil, List.append_nil] at hfound
  refine ⟨_, _, hp, hq, rfl, r [.name "a", .index 0], r [.name "a", .index 1], part, part', ?_, ?_, hpart, hpart', ?_,
    ?_⟩
  · rw [← htext₀]
    exact hr ⟨[.name "a", .index 0], .array [.null], false⟩ List.mem_cons_self
  · rw [← htext₁]
    exact hr ⟨[.name "a", .index 1], .array [.string "b"], false⟩ (List.mem_cons_of_mem _ List.mem_cons_self)
  · rw [← hfound]
    exact hms
  · rw [← hfound]
    rfl

end Query

end PathQuery
