import PathQuery.Proofs.Location.Text
import PathQuery.Proofs.Query.Arrange
import PathQuery.Proofs.Query.Origin
import PathQuery.Standard

namespace PathQuery

/-- The indices on the way to a node of a document are 64-bit words. -/
theorem Location.fits_of_get? {l : Location} {doc v : Value} (hs : doc.Sized) (h : Location.get? l doc = some v) :
    l.Fits := by
  intro s hm
  cases s with
  | index i => exact index_lt_of_get? hs h i hm
  | name _ => trivial

namespace Node

variable {doc : Value} {n : Node}

/-- A node stands in a document at its location, unless it is computed. -/
def Stands (doc : Value) (n : Node) : Prop := n.computed = false → n.location.get? doc = some n.value

theorem Stands.edge (hd : doc.Distinct) (hn : n.Stands doc) {s : Step} {v : Value} (h : (s, v) ∈ n.value.edges) :
    (n.child true s v).Stands doc := by
  intro hc
  show (n.location.child s).get? doc = some v
  rw [Location.get?_child, hn hc]
  exact Step.child?_of_mem_edges (Location.everywhere_get? hd (hn hc)) h

namespace Origin

variable {calls : List Call} {keep : Bool}

theorem stands (hd : doc.Distinct) (h : n.Origin doc true calls) : n.Stands doc := by
  induction h with
  | root => exact fun _ => rfl
  | child _ hv ih => exact ih.edge hd hv
  | result | length =>
    intro hc
    cases hc

/-- Whether or not locations are kept, a node that is not computed is a part of the document. -/
theorem exists_location (hd : doc.Distinct) (h : n.Origin doc keep calls) (hc : n.computed = false) :
    ∃ l, Location.get? l doc = some n.value := by
  induction h with
  | root => exact ⟨.root, rfl⟩
  | @child k s v _ hv ih =>
    obtain ⟨l, hl⟩ := ih hc
    refine ⟨l.child s, ?_⟩
    rw [Location.get?_child, hl]
    exact Step.child?_of_mem_edges (Location.everywhere_get? hd hl) hv
  | result | length => cases hc

end Origin

/-- What an evaluation reports with a match: it comes from the document or from a call, and unless it is computed it
is a part of the document, at its location if locations are kept; the text of the location is read back. -/
structure Told (doc : Value) (keep : Bool) (calls : List Call) (n : Node) : Prop where
  origin : n.Origin doc keep calls
  located : n.computed = false → ∃ l, Location.get? l doc = some n.value ∧ Location.ofText l.text = .ok l ∧
    (keep = true → n.location = l)

theorem Origin.told {calls : List Call} {keep : Bool} (hd : doc.Distinct) (hs : doc.Sized)
    (h : n.Origin doc keep calls) : n.Told doc keep calls := by
  refine ⟨h, ?_⟩
  intro hc
  cases keep with
  | true =>
    have hl := h.stands hd hc
    exact ⟨_, hl, Location.read_text (Location.fits_of_get? hs hl), fun _ => rfl⟩
  | false =>
    obtain ⟨l, hl⟩ := h.exists_location hd hc
    exact ⟨l, hl, Location.read_text (Location.fits_of_get? hs hl), nofun⟩

end Node

theorem mem_of_mem_dropRepeatsOf {l : Location} {ns : List Node} {n : Node} (h : n ∈ dropRepeatsOf l ns) : n ∈ ns := by
  induction ns generalizing l with
  | nil => cases h
  | cons k ns ih =>
    rw [dropRepeatsOf] at h
    split at h
    · exact List.mem_cons_of_mem _ (ih h)
    · rcases List.mem_cons.1 h with rfl | h
      · exact List.mem_cons_self
      · exact List.mem_cons_of_mem _ (ih h)

theorem mem_of_mem_dropRepeats {ns : List Node} {n : Node} (h : n ∈ dropRepeats ns) : n ∈ ns := by
  cases ns with
  | nil => cases h
  | cons k ns =>
    rcases List.mem_cons.1 h with rfl | h
    · exact List.mem_cons_self
    · exact List.mem_cons_of_mem _ (mem_of_mem_dropRepeatsOf h)

theorem mem_of_mem_firstsBeside {seen : List Location} {ns : List Node} {n : Node} (h : n ∈ firstsBeside seen ns) :
    n ∈ ns := by
  induction ns generalizing seen with
  | nil => cases h
  | cons k ns ih =>
    rw [firstsBeside] at h
    split at h
    · exact List.mem_cons_of_mem _ (ih h)
    · rcases List.mem_cons.1 h with rfl | h
      · exact List.mem_cons_self
      · exact List.mem_cons_of_mem _ (ih h)

theorem Flags.tracksLocations_union_located (f : Flags) : (f.union .located).tracksLocations = true := by
  simp [tracksLocations, union, located]

/-- Arranging nodes adds none. -/
theorem Flags.mem_of_mem_arrange {f : Flags} {ns : List Node} {n : Node} (h : n ∈ f.arrange ns) : n ∈ ns := by
  have hsorted : ∀ {n}, n ∈ sortNodes ns → n ∈ ns := fun hn => List.mem_mergeSort.1 hn
  have hkept : ∀ {n}, n ∈ (if f.isDistinct then dropRepeats (sortNodes ns) else sortNodes ns) → n ∈ ns := by
    intro n hn
    split at hn
    · exact hsorted (mem_of_mem_dropRepeats hn)
    · exact hsorted hn
  unfold Flags.arrange at h
  split at h
  · dsimp only at h
    split at h
    · exact hkept (List.mem_reverse.1 h)
    · exact hkept h
  · split at h
    · exact mem_of_mem_firstsBeside h
    · exact h

namespace Query

variable {env : Env} {text : String} {q : Query} {doc : Value}

/-- With locations kept, the matches of a compiled query stand in the document. -/
theorem search_stand (h : compileWith env text = .ok q) (hd : doc.Distinct) {m : Matches}
    (hm : (q.search true doc).result = .ok m) : ∀ n ∈ m.nodes, n.Stands doc := by
  intro n hn
  exact (search_origins h hm n hn).stands hd

theorem nodes_told (h : compileWith env text = .ok q) (hd : doc.Distinct) (hs : doc.Sized) {f : Flags} {ns : List Node}
    (hns : (q.nodes f doc).result = .ok ns) : ∀ n ∈ ns, n.Told doc f.tracksLocations (q.nodes f doc).calls := by
  obtain ⟨m, hm, rfl⟩ := map_eq_ok hns
  intro n hn
  exact (search_origins h hm n (Flags.mem_of_mem_arrange hn)).told hd hs

/-- Every match comes from the root of the document by children, results of calls and lengths; a literal of the query
is none of these. A match that is not computed stands in the document at the location it is reported with, whenever
locations are kept, and the normalized path of this location is read back. So it is for the matches with their
locations, for the locations of all matches and for those that an edit works on. -/
theorem matches_told (h : compileWith env text = .ok q) (hd : doc.Distinct) (hs : doc.Sized) :
    (∀ f ns, (q.nodes f doc).result = .ok ns → ∀ n ∈ ns, n.Told doc f.tracksLocations (q.nodes f doc).calls) ∧
    (∀ f ps, (q.matchesOf f doc).result = .ok ps → ∀ p ∈ ps, ∃ n : Node, p = (n.location, n.value) ∧
      n.Told doc true (q.matchesOf f doc).calls) ∧
    (∀ ls, (q.locations doc).result = .ok ls → ∀ l ∈ ls, ∃ n : Node, l = n.location ∧
      n.Told doc true (q.locations doc).calls) ∧
    ∀ ls, (q.documentLocations doc).result = .ok ls → ∀ l ∈ ls, ∃ n : Node, l = n.location ∧ n.computed = false ∧
      n.Told doc true (q.documentLocations doc).calls := by
  refine ⟨fun f ns hns => nodes_told h hd hs hns, ?_, ?_, ?_⟩
  · intro f ps hps p hp
    obtain ⟨ns, hns, rfl⟩ := map_eq_ok hps
    obtain ⟨n, hn, rfl⟩ := List.mem_map.1 hp
    have hk : (f.union .located).tracksLocations = true := Flags.tracksLocations_union_located f
    have ht := nodes_told h hd hs hns n hn
    rw [hk] at ht
    exact ⟨n, rfl, ht⟩
  · intro ls hls l hl
    obtain ⟨ns, hns, rfl⟩ := map_eq_ok hls
    obtain ⟨n, hn, rfl⟩ := List.mem_map.1 hl
    exact ⟨n, rfl, nodes_told h hd hs hns n hn⟩
  · intro ls hls l hl
    obtain ⟨ns, hns, rfl⟩ := map_eq_ok hls
    obtain ⟨n, hn, rfl⟩ := List.mem_map.1 hl
    obtain ⟨hm, hc⟩ := List.mem_filter.1 hn
    exact ⟨n, rfl, by simpa using hc, nodes_told h hd hs hns n hm⟩

/-- An index from the end finds the last element at its own index. -/
theorem matches_told_last :
    ∃ q, compileWith (.standard []) "$[-1]" = .ok q ∧
      (q.nodes .paths (.array [.null, .string "b"])).result = .ok [⟨[.index 1], .string "b", false⟩] ∧
      Node.Told (.array [.null, .string "b"]) true (q.nodes .paths (.array [.null, .string "b"])).calls
        ⟨[.index 1], .string "b", false⟩ := by
  have h : compileWith (.standard []) "$[-1]" = .ok ⟨[.root, .path [.root 0, .index (-1)]]⟩ :=
    compileWith_of_runFor (k := 20) rfl
  have hd : (Value.array [.null, .string "b"]).Distinct := by
    simp [Value.Distinct, Value.members, Members.names]
  have hs : (Value.array [.null, .string "b"]).Sized := by
    simp [Value.Sized, Value.elements, UInt64.size]
  refine ⟨_, h, rfl, ?_⟩
  exact (matches_told h hd hs).1 .paths _ rfl _ List.mem_cons_self

end Query

end PathQuery
