import Mathlib.Data.Set.Card
import PathQuery.Proofs.Flat
import PathQuery.Proofs.Query.Descent
import PathQuery.Standard

namespace PathQuery

namespace Value

/-- A scalar or an empty container. -/
def isLeaf : Value → Bool
  | array vs => vs.isEmpty
  | object ms => ms.isEmpty
  | _ => true

/-- The locations of the leaves of a document. -/
def leafLocations (doc : Value) : Set Location := {l | ∃ v, l.get? doc = some v ∧ v.isLeaf = true}

theorem isLeaf_eq (v : Value) : v.isLeaf = v.edges.isEmpty := by
  cases v with
  | array vs => cases vs <;> rfl
  | object ms => cases ms <;> rfl
  | _ => rfl

/-- The leaves of a document are what stands at the locations of leaves. -/
theorem mem_leaves {v : Value} (hd : v.Distinct) {l : Location} {w : Value} :
    (l, w) ∈ leaves [] v ↔ l.get? v = some w ∧ w.isLeaf = true := by
  induction v using edge_induction generalizing l with
  | node v ih =>
    rw [leaves_root_eq, ← isLeaf_eq]
    split
    · next hleaf =>
      rw [List.mem_singleton]
      constructor
      · rintro ⟨⟩
        exact ⟨rfl, hleaf⟩
      · rintro ⟨hw, -⟩
        cases l with
        | nil =>
          cases hw
          rfl
        | cons s l =>
          -- no edge starts from a leaf
          obtain ⟨u, hu, -⟩ := Option.bind_eq_some_iff.1 hw
          have he := Step.mem_edges_of_child? hu
          rw [isLeaf_eq, List.isEmpty_iff] at hleaf
          rw [hleaf] at he
          cases he
    · next hleaf =>
      simp only [List.mem_flatMap, List.mem_map]
      constructor
      · rintro ⟨⟨s, u⟩, he, ⟨k, x⟩, hx, hl⟩
        cases hl
        obtain ⟨hget, hw⟩ := (ih s u he (hd.edge he)).1 hx
        refine ⟨?_, hw⟩
        rw [Location.get?, Step.child?_of_mem_edges hd he]
        exact hget
      · rintro ⟨hget, hw⟩
        cases l with
        | nil =>
          cases hget
          exact absurd hw hleaf
        | cons s l =>
          obtain ⟨u, hu, hget⟩ := Option.bind_eq_some_iff.1 hget
          have he := Step.mem_edges_of_child? hu
          exact ⟨(s, u), he, (l, w), (ih s u he (hd.edge he)).2 ⟨hget, hw⟩, rfl⟩

/-- Leaves come in document order. -/
theorem leaves_ordered (v : Value) : (leaves [] v).Pairwise fun d e => v.Precedes d.1 e.1 := by
  induction v using edge_induction with
  | node v ih =>
    rw [leaves_root_eq]
    split
    · exact List.pairwise_singleton _ _
    · refine List.pairwise_flatMap.2 ⟨?_, ?_⟩
      · intro e he
        rw [List.pairwise_map]
        exact (ih e.1 e.2 he).imp fun h => .within he h
      · refine List.pairwise_iff_forall_sublist.2 ?_
        intro e e' hsub d hd d' hd'
        obtain ⟨f, -, rfl⟩ := List.mem_map.1 hd
        obtain ⟨f', -, rfl⟩ := List.mem_map.1 hd'
        exact .beside f.1 f'.1 hsub

theorem length_leaves {v : Value} (hd : v.Distinct) : (leaves [] v).length = v.leafLocations.ncard := by
  have hset : v.leafLocations = ((leaves [] v).map (·.1)).toFinset := by
    ext l
    simp only [leafLocations, Set.mem_ofPred_eq, List.coe_toFinset, List.mem_map]
    constructor
    · rintro ⟨w, hw⟩
      exact ⟨(l, w), (mem_leaves hd).2 hw, rfl⟩
    · rintro ⟨⟨k, w⟩, hw, rfl⟩
      exact ⟨w, (mem_leaves hd).1 hw⟩
  rw [hset, Set.ncard_coe_finset, List.toFinset_card_of_nodup (leaves_nodup hd), List.length_map]

/-- The leaves are the leaves among the descendants, and the document itself if it is one. -/
theorem leaves_perm {v : Value} (hd : v.Distinct) : (leaves [] v).Perm
    ((if v.isLeaf then [([], v)] else []) ++ v.descendants.filter (·.2.isLeaf)) := by
  have hroot : ∀ e ∈ (if v.isLeaf then [(([] : Location), v)] else []), e.1 = [] := by
    intro e he
    split at he
    · rw [List.mem_singleton.1 he]
    · cases he
  have hbelow : (v.descendants.filter (·.2.isLeaf)).Nodup := (List.Nodup.of_map _ (descendants_nodup hd)).filter _
  refine (List.perm_ext_iff_of_nodup (.of_map _ (leaves_nodup hd)) (List.nodup_append.2 ⟨?_, hbelow, ?_⟩)).2 ?_
  · split <;> simp
  · rintro e he f hf rfl
    obtain ⟨hf, -⟩ := List.mem_filter.1 hf
    exact ((mem_descendants hd).1 hf).1 (hroot e he)
  · rintro ⟨l, w⟩
    rw [mem_leaves hd, List.mem_append, List.mem_filter, mem_descendants hd]
    constructor
    · rintro ⟨hw, hleaf⟩
      cases l with
      | nil =>
        cases hw
        exact .inl (by simp [hleaf])
      | cons s l => exact .inr ⟨⟨by simp, hw⟩, hleaf⟩
    · rintro (hw | ⟨⟨-, hw⟩, hleaf⟩)
      · split at hw
        · next hleaf =>
          cases List.mem_singleton.1 hw
          exact ⟨rfl, hleaf⟩
        · cases hw
      · exact ⟨hw, hleaf⟩

end Value

/-- A value under its normalized path. -/
def Location.labelled (e : Location × Value) : String × Value := (e.1.text, e.2)

namespace Query

open Location (labelled)

theorem matchesOf_all (doc : Value) :
    ((ofPath [.descend, .wildcard]).matchesOf .plain doc).result = .ok doc.descendants := by
  obtain ⟨kind, hm⟩ := search_all doc
  rw [matchesOf_result, hm]
  show Except.ok ((doc.descendants.map _).map _) = _
  rw [List.map_map]
  exact congrArg Except.ok (List.map_id _)

/-- A flattened document has one member for each leaf, in document order, and these members are the matches of `$..*`
that are leaves, with the document itself if it is a leaf. -/
theorem flatten_perm_leaf_matches (env : Env) : ∃ q, compileWith env "$..*" = .ok q ∧
    ∀ doc : Value, doc.Distinct → ∃ found leaves : List (Location × Value),
      (q.matchesOf .plain doc).result = .ok found ∧ doc.flatten = .object (leaves.map labelled) ∧
      (leaves.map labelled).Perm
        ((if doc.isLeaf then [("$", doc)] else []) ++ (found.filter (·.2.isLeaf)).map labelled) ∧
      (Members.names (leaves.map labelled)).Nodup ∧ (leaves.map labelled).length = doc.leafLocations.ncard ∧
      leaves.Pairwise fun d e => doc.Precedes d.1 e.1 := by
  refine ⟨_, compileWith_all env, fun doc hd => ?_⟩
  refine ⟨_, doc.leaves [], matchesOf_all doc, Value.flatten_eq hd, ?_, ?_, ?_, doc.leaves_ordered⟩
  · have hroot : (if doc.isLeaf then [([], doc)] else []).map labelled =
        if doc.isLeaf then [("$", doc)] else [] := by
      split <;> rfl
    rw [← hroot, ← List.map_append]
    exact (Value.leaves_perm hd).map labelled
  · have hnames : Members.names ((doc.leaves []).map labelled) = ((doc.leaves []).map (·.1)).map Location.text := by
      simp [Members.names, labelled, Function.comp_def]
    rw [hnames]
    exact (Value.leaves_nodup hd).map fun l m => Location.text_injective
  · rw [List.length_map, Value.length_leaves hd]

/-- Leaves of different kinds at different depths, one of them below a member whose name looks like an index. -/
theorem flatten_perm_leaf_matches_nested :
    let doc : Value := .object [("0", .array [.object [], .null]), ("b", .array [])]
    ∃ q found, compileWith (.standard []) "$..*" = .ok q ∧ (q.matchesOf .plain doc).result = .ok found ∧
      List.Perm [("$['0'][0]", .object []), ("$['0'][1]", .null), ("$['b']", .array [])]
        ((found.filter (·.2.isLeaf)).map labelled) ∧
      doc.leafLocations.ncard = 3 := by
  intro doc
  have hd : doc.Distinct := by simp [doc, Value.Distinct, Value.members, Members.names]
  obtain ⟨q, hq, hall⟩ := flatten_perm_leaf_matches (.standard [])
  obtain ⟨found, leaves, hfound, hflat, hperm, -, hlength, -⟩ := hall doc hd
  have hleaves : leaves.map labelled =
      [("$['0'][0]", .object []), ("$['0'][1]", .null), ("$['b']", .array [])] := by
    have hmembers : doc.flatten.members = leaves.map labelled := congrArg Value.members hflat
    rw [← hmembers, Value.flatten_eq hd]
    rfl
  rw [hleaves] at hperm hlength
  exact ⟨q, found, hq, hfound, hperm, hlength.symm⟩

end Query

end PathQuery
