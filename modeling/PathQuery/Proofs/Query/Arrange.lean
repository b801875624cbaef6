import PathQuery.Proofs.Location.Order
import PathQuery.Query.Answer

namespace PathQuery

open Location

/-- The node that is found first at a location. -/
def firstAt (ns : List Node) (l : Location) : Option Node := ns.find? (·.location = l)

theorem firstAt_location {ns : List Node} {l : Location} {n : Node} (h : firstAt ns l = some n) : n.location = l := by
  simpa using List.find?_some h

theorem firstAt_mem {ns : List Node} {l : Location} {n : Node} (h : firstAt ns l = some n) : n ∈ ns :=
  List.mem_of_find?_eq_some h

theorem firstAt_cons_self (n : Node) (ns : List Node) : firstAt (n :: ns) n.location = some n := by
  simp [firstAt]

theorem firstAt_cons_of_ne {n : Node} {l : Location} (h : n.location ≠ l) (ns : List Node) :
    firstAt (n :: ns) l = firstAt ns l := by
  simp [firstAt, h]

theorem exists_firstAt {ns : List Node} {n : Node} (h : n ∈ ns) : ∃ k, firstAt ns n.location = some k := by
  have hs : (firstAt ns n.location).isSome = true := List.find?_isSome.2 ⟨n, h, by simp⟩
  exact Option.isSome_iff_exists.1 hs

theorem node_le_trans (n m k : Node) (h₁ : n.location.le m.location = true) (h₂ : m.location.le k.location = true) :
    n.location.le k.location = true := le_trans h₁ h₂

theorem node_le_total (n m : Node) : (n.location.le m.location || m.location.le n.location) = true :=
  le_total n.location m.location

theorem sortNodes_pairwise (ns : List Node) :
    (sortNodes ns).Pairwise fun n m => n.location.le m.location = true :=
  List.pairwise_mergeSort node_le_trans node_le_total ns

/-- Sorting is stable. -/
theorem filter_sortNodes (ns : List Node) (l : Location) :
    (sortNodes ns).filter (·.location = l) = ns.filter (·.location = l) := by
  have hle : (ns.filter (·.location = l)).Pairwise fun n m => n.location.le m.location = true := by
    refine List.pairwise_of_forall_mem_list ?_
    intro n hn m hm
    have hnl : n.location = l := by simpa using (List.mem_filter.1 hn).2
    have hml : m.location = l := by simpa using (List.mem_filter.1 hm).2
    exact le_iff.2 (.inl (hnl.trans hml.symm))
  have hs : List.Sublist (ns.filter (·.location = l)) (sortNodes ns) :=
    List.sublist_mergeSort node_le_trans node_le_total hle List.filter_sublist
  have hf := hs.filter (·.location = l)
  rw [List.filter_filter] at hf
  simp only [Bool.and_self] at hf
  have hp : ((sortNodes ns).filter (·.location = l)).length = (ns.filter (·.location = l)).length :=
    ((List.mergeSort_perm ns _).filter _).length_eq
  exact (hf.eq_of_length hp.symm).symm

theorem firstAt_sortNodes (ns : List Node) (l : Location) : firstAt (sortNodes ns) l = firstAt ns l := by
  rw [firstAt, ← List.head?_filter, filter_sortNodes, List.head?_filter, firstAt]

/-- The nodes behind a location in a sorted list, each location once. -/
theorem dropRepeatsOf_spec {ns : List Node} (hs : ns.Pairwise fun n m => n.location.le m.location = true)
    {l : Location} (hl : ∀ n ∈ ns, l.le n.location = true) :
    (dropRepeatsOf l ns).Pairwise (fun n m => Before n.location m.location) ∧
      (∀ n ∈ dropRepeatsOf l ns, Before l n.location) ∧
      ∀ k, k ≠ l → firstAt (dropRepeatsOf l ns) k = firstAt ns k := by
  induction ns generalizing l with
  | nil => exact ⟨.nil, by simp [dropRepeatsOf], fun _ _ => rfl⟩
  | cons n ns ih =>
    obtain ⟨hn, hrest⟩ := List.pairwise_cons.1 hs
    rw [dropRepeatsOf]
    by_cases h : n.location = l
    · rw [if_pos h]
      obtain ⟨hp, hb, hf⟩ := ih hrest fun m hm => hl m (List.mem_cons_of_mem _ hm)
      refine ⟨hp, hb, ?_⟩
      intro k hk
      rw [hf k hk, firstAt_cons_of_ne (by rw [h]; exact hk.symm)]
    · rw [if_neg h]
      obtain ⟨hp, hb, hf⟩ := ih hrest hn
      have hln : Before l n.location := (le_iff.1 (hl n (by simp))).resolve_left (Ne.symm h)
      refine ⟨List.pairwise_cons.2 ⟨hb, hp⟩, ?_, ?_⟩
      · intro m hm
        rcases List.mem_cons.1 hm with rfl | hm
        · exact hln
        · exact hln.trans (hb m hm)
      · intro k _
        by_cases hk : n.location = k
        · subst hk
          rw [firstAt_cons_self, firstAt_cons_self]
        · rw [firstAt_cons_of_ne hk, firstAt_cons_of_ne hk]
          exact hf k (Ne.symm hk)

theorem dropRepeats_spec {ns : List Node} (hs : ns.Pairwise fun n m => n.location.le m.location = true) :
    (dropRepeats ns).Pairwise (fun n m => Before n.location m.location) ∧
      ∀ l, firstAt (dropRepeats ns) l = firstAt ns l := by
  cases ns with
  | nil => exact ⟨.nil, fun _ => rfl⟩
  | cons n ns =>
    obtain ⟨hn, hrest⟩ := List.pairwise_cons.1 hs
    obtain ⟨hp, hb, hf⟩ := dropRepeatsOf_spec hrest hn
    refine ⟨List.pairwise_cons.2 ⟨hb, hp⟩, ?_⟩
    intro l
    rw [dropRepeats]
    by_cases h : n.location = l
    · subst h
      rw [firstAt_cons_self, firstAt_cons_self]
    · rw [firstAt_cons_of_ne h, firstAt_cons_of_ne h]
      exact hf l (Ne.symm h)

/-- Where all locations are different every node is the first at its location. -/
theorem firstAt_of_mem {ns : List Node} (hp : ns.Pairwise fun n m => n.location ≠ m.location) {n : Node}
    (h : n ∈ ns) : firstAt ns n.location = some n := by
  induction ns with
  | nil => cases h
  | cons m ns ih =>
    obtain ⟨hm, hrest⟩ := List.pairwise_cons.1 hp
    rcases List.mem_cons.1 h with rfl | h
    · exact firstAt_cons_self n ns
    · rw [firstAt_cons_of_ne (hm n h)]
      exact ih hrest h

/-- Sorted nodes without repeats: the first node at each location, in the order of locations. -/
theorem mem_dropRepeats_sortNodes {ns : List Node} {n : Node} :
    n ∈ dropRepeats (sortNodes ns) ↔ firstAt ns n.location = some n := by
  obtain ⟨hp, hf⟩ := dropRepeats_spec (sortNodes_pairwise ns)
  rw [← firstAt_sortNodes, ← hf]
  constructor
  · exact firstAt_of_mem (hp.imp fun hb => hb.ne)
  · exact firstAt_mem

/-- The locations that an edit works on, for given matches. -/
def editLocations (ns : List Node) : List Location :=
  (((Flags.distinct.union .descending).arrange ns).filter (!·.computed)).map (·.location)

theorem arrange_distinct_descending (ns : List Node) :
    (Flags.distinct.union .descending).arrange ns = (dropRepeats (sortNodes ns)).reverse := rfl

theorem editLocations_of_pairwise {ns : List Node} (hs : ns.Pairwise fun n m => n.location.le m.location = true) :
    editLocations ns = ((dropRepeats ns).reverse.filter (!·.computed)).map (·.location) := by
  rw [editLocations, arrange_distinct_descending, sortNodes, List.mergeSort_of_pairwise hs]

/-- An edit works on a location if the match that is found there first is not computed. -/
theorem mem_editLocations {ns : List Node} {l : Location} :
    l ∈ editLocations ns ↔ ∃ n, firstAt ns l = some n ∧ n.computed = false := by
  unfold editLocations
  rw [arrange_distinct_descending, List.mem_map]
  constructor
  · intro hex
    obtain ⟨n, hn, rfl⟩ := hex
    obtain ⟨hm, hc⟩ := List.mem_filter.1 hn
    exact ⟨n, mem_dropRepeats_sortNodes.1 (List.mem_reverse.1 hm), by simpa using hc⟩
  · intro hex
    obtain ⟨n, hf, hc⟩ := hex
    have hl := firstAt_location hf
    refine ⟨n, List.mem_filter.2 ⟨List.mem_reverse.2 ?_, by simp [hc]⟩, hl⟩
    rw [mem_dropRepeats_sortNodes, hl]
    exact hf

/-- Edits go from later locations to earlier ones. -/
theorem editLocations_pairwise (ns : List Node) : (editLocations ns).Pairwise fun l m => Before m l := by
  unfold editLocations
  rw [arrange_distinct_descending, List.pairwise_map]
  refine List.Pairwise.filter _ ?_
  rw [List.pairwise_reverse]
  exact (dropRepeats_spec (sortNodes_pairwise ns)).1

end PathQuery
