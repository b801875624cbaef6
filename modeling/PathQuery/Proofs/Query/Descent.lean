import PathQuery.Proofs.Query.AnswerOrder
import PathQuery.Proofs.Query.Composition
import PathQuery.Proofs.Query.Kinds
import PathQuery.Standard

namespace PathQuery

open Eval Strategy

namespace Value

/-- Document order of two locations in a value: a location comes before what is below it, and what is below an edge
before what is below a later one. -/
inductive Precedes : Value → Location → Location → Prop
  | above (v : Value) (s : Step) (m : Location) : Precedes v [] (s :: m)
  | within {v w : Value} {s : Step} {l m : Location} (he : (s, w) ∈ v.edges) (h : Precedes w l m) :
      Precedes v (s :: l) (s :: m)
  | beside {v : Value} {s t : Step} {u w : Value} (l m : Location) (h : [(s, u), (t, w)].Sublist v.edges) :
      Precedes v (s :: l) (t :: m)

/-- The containers at and below a value, with the steps that lead to them. -/
def containers (v : Value) : List (Location × Value) :=
  ((Node.root v).containers true).map fun n => (n.location, n.value)

theorem isContainer_of_mem_edges {v w : Value} {s : Step} (h : (s, w) ∈ v.edges) : v.isContainer = true := by
  cases v with
  | array vs => rfl
  | object ms => rfl
  | _ => cases h

theorem Precedes.ne {v : Value} {l m : Location} (hd : v.Distinct) (h : Precedes v l m) : l ≠ m := by
  induction h with
  | above => exact nofun
  | within he _ ih =>
    rintro ⟨⟩
    exact ih (hd.edge he) rfl
  | beside l m h =>
    rintro ⟨⟩
    have hn := (h.map (·.1)).nodup hd.edges_nodup
    simp at hn

end Value

namespace Node

/-- What stands below a node at the end of some steps. -/
def below (keep : Bool) (n : Node) : Location → Value → Node
  | [], v => { n with value := v }
  | s :: l, v => (n.child keep s v).below keep l v

theorem below_child (keep : Bool) (n : Node) (s : Step) (w : Value) (l : Location) (v : Value) :
    (n.child keep s w).below keep l v = n.below keep (s :: l) v := by
  cases l <;> rfl

theorem location_below (n : Node) (l : Location) (v : Value) : (n.below true l v).location = n.location ++ l := by
  induction l generalizing n with
  | nil => simp [below]
  | cons s l ih =>
    rw [below, ih]
    simp [child, Location.child]

theorem value_below (keep : Bool) (n : Node) (l : Location) (v : Value) : (n.below keep l v).value = v := by
  induction l generalizing n with
  | nil => rfl
  | cons s l ih => exact ih _

theorem computed_below (keep : Bool) (n : Node) (l : Location) (v : Value) :
    (n.below keep l v).computed = n.computed := by
  induction l generalizing n with
  | nil => rfl
  | cons s l ih => exact ih _

theorem children_eq_edges (keep : Bool) (n : Node) :
    n.children keep = n.value.edges.map fun e => n.child keep e.1 e.2 := by
  obtain ⟨l, v, c⟩ := n
  cases v <;> simp [children, elements, members, Value.elements, Value.members, Value.edges, Function.comp_def]

theorem elementContainers_eq (keep : Bool) (n : Node) (i : Nat) (vs : List Value) :
    elementContainers keep n.location n.computed i vs =
      (vs.zipIdx i).flatMap fun p => (n.child keep (.index p.2) p.1).containers keep := by
  induction vs generalizing i with
  | nil => rw [elementContainers]; rfl
  | cons v vs ih =>
    rw [elementContainers, ih, List.zipIdx_cons, List.flatMap_cons]
    rfl

theorem memberContainers_eq (keep : Bool) (n : Node) (ms : List (String × Value)) :
    memberContainers keep n.location n.computed ms =
      ms.flatMap fun m => (n.child keep (.name m.1) m.2).containers keep := by
  induction ms with
  | nil => rw [memberContainers]; rfl
  | cons m ms ih =>
    rw [memberContainers, ih, List.flatMap_cons]
    rfl

/-- A container comes before the containers at and below its children. -/
theorem containers_eq (keep : Bool) (n : Node) : n.containers keep =
    if n.value.isContainer then n :: n.value.edges.flatMap fun e => (n.child keep e.1 e.2).containers keep else [] := by
  obtain ⟨l, v, c⟩ := n
  cases v with
  | array vs =>
    have he := elementContainers_eq keep ⟨l, .array vs, c⟩ 0 vs
    rw [containers, containersAt, he]
    simp [Value.isContainer, Value.isArray, Value.edges, List.flatMap_map]
  | object ms =>
    have he := memberContainers_eq keep ⟨l, .object ms, c⟩ ms
    rw [containers, containersAt, he]
    simp [Value.isContainer, Value.isObject, Value.edges, List.flatMap_map]
  | _ => simp [containers, containersAt, Value.isContainer, Value.isArray, Value.isObject]

end Node

namespace Value

/-- The containers of a value, and those of a node, where they stand below it. -/
theorem containers_spec (v : Value) :
    (v.containers = if v.isContainer then
        ([], v) :: v.edges.flatMap fun e => e.2.containers.map fun c => (e.1 :: c.1, c.2) else []) ∧
      ∀ keep (n : Node), n.value = v → n.containers keep = v.containers.map fun c => n.below keep c.1 c.2 := by
  induction v using edge_induction with
  | node v ih =>
    have hedges : ∀ keep (n : Node), (v.edges.flatMap fun e => (n.child keep e.1 e.2).containers keep) =
        (v.edges.flatMap fun e => e.2.containers.map fun c => (e.1 :: c.1, c.2)).map
          fun c => n.below keep c.1 c.2 := by
      intro keep n
      rw [List.map_flatMap]
      refine List.flatMap_congr fun e he => ?_
      rw [(ih e.1 e.2 he).2 keep _ rfl, List.map_map]
      refine List.map_congr_left fun c _ => ?_
      exact n.below_child keep e.1 e.2 c.1 c.2
    have hfirst : v.containers = if v.isContainer then
        ([], v) :: v.edges.flatMap fun e => e.2.containers.map fun c => (e.1 :: c.1, c.2) else [] := by
      rw [containers, Node.containers_eq]
      show List.map _ (if v.isContainer then _ else _) = _
      split
      · show _ :: List.map _ (v.edges.flatMap _) = _
        rw [hedges true (.root v), List.map_map]
        congr 1
        refine (List.map_congr_left fun c _ => ?_).trans (List.map_id _)
        simp [Node.location_below, Node.value_below, Node.root, Location.root]
      · rfl
    refine ⟨hfirst, ?_⟩
    rintro keep n rfl
    rw [hfirst, Node.containers_eq]
    split
    · rw [hedges, List.map_cons]
      rfl
    · rfl

theorem mem_containers {v : Value} (hd : v.Distinct) {l : Location} {w : Value} :
    (l, w) ∈ v.containers ↔ l.get? v = some w ∧ w.isContainer = true := by
  induction l generalizing v with
  | nil =>
    rw [(containers_spec v).1]
    split
    · next h =>
      simp only [List.mem_cons, List.mem_flatMap, List.mem_map, Location.get?]
      constructor
      · rintro (he | ⟨e, _, c, _, he⟩)
        · cases he
          exact ⟨rfl, h⟩
        · cases he
      · rintro ⟨hw, -⟩
        cases hw
        exact .inl rfl
    · next h =>
      refine ⟨fun hm => absurd hm List.not_mem_nil, ?_⟩
      rintro ⟨hw, hc⟩
      cases hw
      exact absurd hc h
  | cons s l ih =>
    rw [(containers_spec v).1]
    have hstep : Location.get? (s :: l) v = some w ↔ ∃ u, (s, u) ∈ v.edges ∧ Location.get? l u = some w := by
      rw [Location.get?]
      constructor
      · intro h
        obtain ⟨u, hu, hw⟩ := Option.bind_eq_some_iff.1 h
        exact ⟨u, Step.mem_edges_of_child? hu, hw⟩
      · rintro ⟨u, hu, hw⟩
        rw [Step.child?_of_mem_edges hd hu]
        exact hw
    rw [hstep]
    split
    · simp only [List.mem_cons, List.mem_flatMap, List.mem_map]
      constructor
      · rintro (he | ⟨⟨t, u⟩, hu, c, hc, he⟩)
        · cases he
        · cases he
          obtain ⟨hw, hcontainer⟩ := (ih (hd.edge hu)).1 hc
          exact ⟨⟨u, hu, hw⟩, hcontainer⟩
      · rintro ⟨⟨u, hu, hw⟩, hcontainer⟩
        exact .inr ⟨(s, u), hu, (l, w), (ih (hd.edge hu)).2 ⟨hw, hcontainer⟩, rfl⟩
    · next h =>
      refine ⟨fun hm => absurd hm List.not_mem_nil, ?_⟩
      rintro ⟨⟨u, hu, -⟩, -⟩
      exact absurd (isContainer_of_mem_edges hu) h

theorem containers_preorder (v : Value) : v.containers.Pairwise fun c d => v.Precedes c.1 d.1 := by
  induction v using edge_induction with
  | node v ih =>
    rw [(containers_spec v).1]
    split
    · refine List.pairwise_cons.2 ⟨?_, List.pairwise_flatMap.2 ⟨?_, ?_⟩⟩
      · intro d hd
        obtain ⟨e, -, he⟩ := List.mem_flatMap.1 hd
        obtain ⟨c, -, rfl⟩ := List.mem_map.1 he
        exact .above v e.1 c.1
      · intro e he
        rw [List.pairwise_map]
        exact (ih e.1 e.2 he).imp fun h => .within he h
      · refine List.pairwise_iff_forall_sublist.2 ?_
        intro e e' hsub d hd d' hd'
        obtain ⟨c, -, rfl⟩ := List.mem_map.1 hd
        obtain ⟨c', -, rfl⟩ := List.mem_map.1 hd'
        exact .beside c.1 c'.1 hsub
    · exact .nil

theorem containers_nodup {v : Value} (hd : v.Distinct) : (v.containers.map (·.1)).Nodup := by
  rw [List.Nodup, List.pairwise_map]
  exact (containers_preorder v).imp fun h => h.ne hd

end Value

theorem each_map_left {α β γ : Type} {R : β → List γ → Prop} (g : α → β) {as : List α} {cs : List γ} :
    Each R (as.map g) cs ↔ Each (fun a cs => R (g a) cs) as cs := by
  induction as generalizing cs with
  | nil => rw [List.map_nil, each_nil, each_nil]
  | cons a as ih => simp only [List.map_cons, each_cons, ih]

/-- From the containers at and below a node, in their order, a descent finds what the rest of its path finds. -/
theorem finds_descend {t : Strategy} (ht : t.Direct) (s : Setting) (path : List Selector) (n : Node) {ns : List Node} :
    Finds (select t s (.descend :: path) n) ns ↔
      Each (fun c ys => Finds (select t s path (n.below s.keep c.1 c.2)) ys) n.value.containers ns := by
  have hstarts : follow t s .descend single .single n = pure ⟨n.containers s.keep, .many⟩ := by
    rw [follow]
    exact collect_pure _
  rw [finds_select_cons ht, hstarts]
  simp only [finds_pure, exists_eq_left, (Value.containers_spec n.value).2 s.keep n rfl, each_map_left]

namespace Query

variable {env : Env} {text : String} {q : Query} {s : Setting} {path : List Selector}

/-- In any session that can be reached a path finds what it finds when every path is taken anew. -/
theorem select_iff_finds (h : compileWith env text = .ok q) (hp : pathChains path ⊆ programChains q.program)
    {σ : Session} (hσ : σ.Reachable s (programChains q.program)) {n : Node} {ns : List Node} :
    (∃ kind, resultIn σ (select .once s path n) = .ok ⟨ns, kind⟩) ↔ Finds (select .anew s path n) ns := by
  have hagrees : ∀ τ, resultIn σ (select .once s path n) = resultIn τ (select .anew s path n) :=
    fun τ => (agrees h s hp n σ τ (faithful_of_reachable h hσ)).1
  constructor
  · rintro ⟨kind, hm⟩
    exact ⟨kind, fun τ => (hagrees τ).symm.trans hm⟩
  · rintro ⟨kind, hm⟩
    exact ⟨kind, (hagrees .empty).trans (hm .empty)⟩

end Query

/-- All children of all containers of a value. -/
def Value.descendants (v : Value) : List (Location × Value) :=
  v.containers.flatMap fun c => c.2.edges.map fun e => (c.1 ++ [e.1], e.2)

theorem Value.mem_descendants {v : Value} (hd : v.Distinct) {l : Location} {w : Value} :
    (l, w) ∈ v.descendants ↔ l ≠ [] ∧ l.get? v = some w := by
  simp only [descendants, List.mem_flatMap, List.mem_map]
  constructor
  · rintro ⟨c, hc, e, he, hl⟩
    cases hl
    obtain ⟨hu, -⟩ := (mem_containers hd).1 hc
    refine ⟨by simp, ?_⟩
    have hchild := Step.child?_of_mem_edges (Location.everywhere_get? hd hu) he
    rw [← Location.child, Location.get?_child, hu]
    exact hchild
  · rintro ⟨hl, hw⟩
    obtain ⟨k, s, rfl⟩ : ∃ k s, l = k ++ [s] := ⟨_, _, (List.dropLast_append_getLast hl).symm⟩
    rw [← Location.child, Location.get?_child] at hw
    obtain ⟨u, hu, hs⟩ := Option.bind_eq_some_iff.1 hw
    have he := Step.mem_edges_of_child? hs
    exact ⟨(k, u), (mem_containers hd).2 ⟨hu, isContainer_of_mem_edges he⟩, (s, w), he, rfl⟩

theorem Value.descendants_nodup {v : Value} (hd : v.Distinct) : (v.descendants.map (·.1)).Nodup := by
  rw [descendants, List.map_flatMap, List.nodup_flatMap]
  constructor
  · intro c hc
    have hdc : c.2.Distinct := Location.everywhere_get? hd ((mem_containers hd).1 hc).1
    rw [List.map_map]
    have hlocations : c.2.edges.map ((·.1) ∘ fun e => (c.1 ++ [e.1], e.2)) =
        (c.2.edges.map (·.1)).map fun s => c.1 ++ [s] := by
      rw [List.map_map]
      rfl
    rw [hlocations]
    exact hdc.edges_nodup.map fun s t hst => by simpa using hst
  · -- children of different containers differ before their last step
    refine (List.pairwise_map.1 (containers_nodup hd)).imp fun {c c'} hne => ?_
    intro l hl hl'
    simp only [List.map_map, List.mem_map] at hl hl'
    obtain ⟨e, -, rfl⟩ := hl
    obtain ⟨e', -, he⟩ := hl'
    exact hne (List.append_inj_left' he rfl).symm

namespace Eval

/-- What is found from each of some things, if it can be told from the thing. -/
theorem each_eq {α β : Type} {g : α → List β} {as : List α} {bs : List β} :
    Each (fun a bs => bs = g a) as bs ↔ bs = as.flatMap g := by
  induction as generalizing bs with
  | nil => rw [each_nil, List.flatMap_nil]
  | cons a as ih => simp [each_cons, ih]

/-- A path from the root finds what is behind the root. -/
theorem finds_root {s : Setting} {i : Nat} {path : List Selector} {n : Node} {ns : List Node} :
    Finds (select .anew s (.root i :: path) n) ns ↔ Finds (select .anew s path (.root s.doc)) ns := by
  rw [select, follow]
  exact (direct_anew.same_path (select_steady direct_anew path _) i).finds_iff

/-- A wildcard behind a descent finds all that is below a node. -/
theorem finds_descend_wildcard {doc : Value} {ns : List Node} :
    Finds (select .anew ⟨doc, true⟩ [.descend, .wildcard] (.root doc)) ns ↔
      ns = doc.descendants.map fun p => ⟨p.1, p.2, false⟩ := by
  have hwildcard : ∀ (n : Node) (ys : List Node),
      Finds (select .anew ⟨doc, true⟩ [.wildcard] n) ys ↔ ys = n.children true := by
    intro n ys
    have hall : select .anew ⟨doc, true⟩ [.wildcard] n = pure ⟨n.children true, .many⟩ := by
      rw [select, follow]
      exact collect_pure _
    rw [hall, finds_pure]
  have hchildren : ∀ c : Location × Value, ((Node.root doc).below true c.1 c.2).children true =
      (c.2.edges.map fun e => (c.1 ++ [e.1], e.2)).map fun p => ⟨p.1, p.2, false⟩ := by
    intro c
    rw [Node.children_eq_edges, Node.value_below, List.map_map]
    refine List.map_congr_left fun e _ => ?_
    simp [Node.child, Node.location_below, Node.computed_below, Node.root, Location.root, Location.child]
  rw [finds_descend direct_anew]
  simp only [hwildcard, each_eq, hchildren]
  rw [Value.descendants, List.map_flatMap]
  rfl

end Eval

namespace Query

variable {env : Env} {text : String} {q : Query}

theorem compileWith_all (env : Env) : compileWith env "$..*" = .ok (.ofPath [.descend, .wildcard]) :=
  compileWith_of_runFor (k := 20) rfl

theorem search_all (doc : Value) : ∃ kind, ((ofPath [.descend, .wildcard]).search true doc).result =
    .ok ⟨doc.descendants.map fun p => ⟨p.1, p.2, false⟩, kind⟩ :=
  (search_iff_finds .root (compileWith_all (.standard []))).2 (finds_root.2 (finds_descend_wildcard.2 rfl))

/-- A descent goes on from every container at and below a node, from each once, and in the order of the document: what
it selects is what the rest of its path selects from each of them, one after the other. So `$..*` matches all that is
below the root, each location once, and it makes no difference to ask for each location once. -/
theorem descent_in_order (h : compileWith env text = .ok q) :
    (∀ (s : Setting) before path, q.program.HasPath (before ++ .descend :: path) →
      ∀ n : Node, n.value.Distinct → ∃ cs : List (Location × Value),
        (∀ l v, (l, v) ∈ cs ↔ l.get? n.value = some v ∧ v.isContainer = true) ∧ (cs.map (·.1)).Nodup ∧
        (cs.Pairwise fun c d => n.value.Precedes c.1 d.1) ∧
        ∀ σ τ, σ.Reachable s (programChains q.program) → τ.Reachable s (programChains q.program) → ∀ ns,
          (∃ kind, resultIn σ (select .once s (.descend :: path) n) = .ok ⟨ns, kind⟩) ↔
            ∃ parts, List.Forall₂ (fun c part => ∃ kind,
              resultIn τ (select .once s path (n.below s.keep c.1 c.2)) = .ok ⟨part, kind⟩) cs parts ∧
              ns = parts.flatten) ∧
    ∃ r, compileWith env "$..*" = .ok r ∧ ∀ doc : Value, doc.Distinct →
      ∃ ms, (r.matchesOf .plain doc).result = .ok ms ∧ (ms.map (·.1)).Nodup ∧
        (∀ l v, (l, v) ∈ ms ↔ l ≠ [] ∧ l.get? doc = some v) ∧
        ∀ f : Flags, (r.matchesOf (f.union .distinct) doc).result = (r.matchesOf f doc).result ∧
          (r.evaluate (f.union .distinct) doc).result = (r.evaluate f doc).result := by
  constructor
  · intro s before path hpath n hd
    have hdescend : pathChains (.descend :: path) ⊆ programChains q.program :=
      fun c hc => hpath.chains_subset (pathChains_subset_append before _ hc)
    have hrest : pathChains path ⊆ programChains q.program :=
      fun c hc => hdescend (pathChains_subset_append [.descend] path hc)
    refine ⟨n.value.containers, fun l v => Value.mem_containers hd, Value.containers_nodup hd,
      n.value.containers_preorder, ?_⟩
    intro σ τ hσ hτ ns
    rw [select_iff_finds h hdescend hσ, finds_descend direct_anew, each_iff_forall₂]
    simp only [select_iff_finds h hrest hτ]
  · refine ⟨_, compileWith_all env, fun doc hd => ?_⟩
    obtain ⟨kind, hm⟩ := search_all doc
    have hmatches : ∀ f : Flags, ((ofPath [.descend, .wildcard]).matchesOf f doc).result =
        .ok ((f.arrange (doc.descendants.map fun p => ⟨p.1, p.2, false⟩)).map fun n => (n.location, n.value)) := by
      intro f
      rw [matchesOf_result, hm]
      rfl
    have hapart : (doc.descendants.map fun p => (⟨p.1, p.2, false⟩ : Node)).Pairwise
        fun n m => n.location ≠ m.location :=
      List.pairwise_map.2 (List.pairwise_map.1 (Value.descendants_nodup hd))
    have hdistinct : ∀ f : Flags, ((ofPath [.descend, .wildcard]).matchesOf (f.union .distinct) doc).result =
        ((ofPath [.descend, .wildcard]).matchesOf f doc).result := by
      intro f
      rw [hmatches, hmatches, f.arrange_union_distinct hapart]
    refine ⟨doc.descendants, ?_, Value.descendants_nodup hd, fun l v => Value.mem_descendants hd, ?_⟩
    · rw [hmatches]
      show Except.ok ((doc.descendants.map _).map _) = _
      rw [List.map_map]
      exact congrArg Except.ok (List.map_id _)
    · intro f
      refine ⟨hdistinct f, ?_⟩
      have hpaths : (f.union .distinct).wantsPaths = f.wantsPaths := Flags.contains_union rfl f
      rw [evaluate_eq_map, evaluate_eq_map]
      show Except.map _ _ = Except.map _ _
      rw [hdistinct, hpaths]

/-- Below a member is a member of the same name. -/
theorem descent_in_order_nested :
    let doc : Value := .object [("a", .object [("a", .null)])]
    ∃ (q : Query) (cs : List (Location × Value)) (parts : List (List Node)), compileWith (.standard []) "$..a" = .ok q ∧
      ([], doc) ∈ cs ∧ ([.name "a"], .object [("a", .null)]) ∈ cs ∧ (cs.map (·.1)).Nodup ∧
      List.Forall₂ (fun c part => ∃ kind, resultIn .empty (select .once ⟨doc, true⟩ [.member "a"]
        ((Node.root doc).below true c.1 c.2)) = .ok ⟨part, kind⟩) cs parts ∧
      parts.flatten.map (·.location) = [[.name "a"], [.name "a", .name "a"]] ∧
      ∃ r ms, compileWith (.standard []) "$..*" = .ok r ∧ (r.matchesOf .plain doc).result = .ok ms ∧
        ([.name "a", .name "a"], .null) ∈ ms := by
  intro doc
  have h : compileWith (.standard []) "$..a" = .ok ⟨[.root, .path [.root 0, .descend, .member "a"]]⟩ :=
    compileWith_of_runFor (k := 20) rfl
  have hd : doc.Distinct := by simp [doc, Value.Distinct, Value.members, Members.names]
  obtain ⟨hdescent, r, hr, hall⟩ := descent_in_order h
  have hpath : Program.HasPath [.root, .path [.root 0, .descend, .member "a"]]
      ([.root 0] ++ .descend :: [.member "a"]) := .operand (List.mem_of_getElem? (i := 1) rfl)
  obtain ⟨cs, hcs, hnodup, -, hparts⟩ := hdescent ⟨doc, true⟩ [.root 0] [.member "a"] hpath (.root doc) hd
  obtain ⟨parts, hforall, hns⟩ := (hparts .empty .empty .empty .empty [⟨[.name "a"], .object [("a", .null)], false⟩,
    ⟨[.name "a", .name "a"], .null, false⟩]).1 ⟨.many, rfl⟩
  obtain ⟨ms, hms, -, hmem, -⟩ := hall doc hd
  refine ⟨_, cs, parts, h, (hcs _ _).2 ⟨rfl, rfl⟩, (hcs _ _).2 ⟨rfl, rfl⟩, hnodup, hforall, ?_, r, ms, hr, hms,
    (hmem _ _).2 ⟨by simp, rfl⟩⟩
  rw [← hns]
  rfl

end Query

end PathQuery
