import PathQuery.Proofs.Query.Answers
import PathQuery.Proofs.Query.Visits
import PathQuery.Standard

namespace PathQuery

open Location

/-- The nodes before which no other has their location, in their order. -/
def firsts (ns : List Node) : List Node :=
  (ns.zipIdx.filter fun p => (ns.take p.2).all fun m => m.location ≠ p.1.location).map (·.1)

/-- The first node at each location, and no other, in any order. -/
structure KeepsFirsts (kept ns : List Node) : Prop where
  apart : kept.Pairwise fun n m => n.location ≠ m.location
  firstAt_eq : ∀ l, firstAt kept l = firstAt ns l

namespace KeepsFirsts

variable {kept other ns : List Node}

theorem mem (h : KeepsFirsts kept ns) {n : Node} : n ∈ kept ↔ firstAt ns n.location = some n := by
  rw [← h.firstAt_eq]
  constructor
  · exact firstAt_of_mem h.apart
  · exact firstAt_mem

theorem nodup (h : KeepsFirsts kept ns) : kept.Nodup := by
  refine h.apart.imp ?_
  rintro n _ hne rfl
  exact hne rfl

theorem perm (h : KeepsFirsts kept ns) (h' : KeepsFirsts other ns) : kept.Perm other := by
  refine (List.perm_ext_iff_of_nodup h.nodup h'.nodup).2 fun n => ?_
  rw [h.mem, h'.mem]

theorem trans (h : KeepsFirsts other kept) (h' : KeepsFirsts kept ns) : KeepsFirsts other ns :=
  ⟨h.apart, fun l => (h.firstAt_eq l).trans (h'.firstAt_eq l)⟩

theorem reverse (h : KeepsFirsts kept ns) : KeepsFirsts kept.reverse ns := by
  have ha : kept.reverse.Pairwise fun n m => n.location ≠ m.location := by
    rw [List.pairwise_reverse]
    exact h.apart.imp fun hne => hne.symm
  refine ⟨ha, fun l => ?_⟩
  rw [← h.firstAt_eq]
  -- each location is found at one node, whichever end the search starts from
  cases hl : firstAt kept l with
  | some n =>
    have hn := firstAt_of_mem ha (List.mem_reverse.2 (firstAt_mem hl))
    rwa [firstAt_location hl] at hn
  | none =>
    cases hr : firstAt kept.reverse l with
    | none => rfl
    | some n =>
      have hn := firstAt_of_mem h.apart (List.mem_reverse.1 (firstAt_mem hr))
      rw [firstAt_location hr, hl] at hn
      cases hn

/-- In ascending order there is one such list. -/
theorem eq_of_ascending (h : KeepsFirsts kept ns) (h' : KeepsFirsts other ns)
    (hb : kept.Pairwise fun n m => Before n.location m.location)
    (hb' : other.Pairwise fun n m => Before n.location m.location) : kept = other := by
  refine List.Perm.eq_of_pairwise ?_ hb hb' (h.perm h')
  intro n m _ _ hnm hmn
  exact absurd (hnm.trans hmn) (before_irrefl _)

end KeepsFirsts

theorem firstsBeside_spec {seen : List Location} (ns : List Node) :
    (firstsBeside seen ns).Pairwise (fun n m => n.location ≠ m.location) ∧
      (∀ n ∈ firstsBeside seen ns, n.location ∉ seen) ∧
      ∀ l ∉ seen, firstAt (firstsBeside seen ns) l = firstAt ns l := by
  induction ns generalizing seen with
  | nil => exact ⟨.nil, nofun, fun _ _ => rfl⟩
  | cons n ns ih =>
    rw [firstsBeside]
    split
    · next h =>
      obtain ⟨ha, hs, hf⟩ := @ih seen
      refine ⟨ha, hs, fun l hl => ?_⟩
      have hne : n.location ≠ l := by
        rintro rfl
        exact hl h
      rw [hf l hl, firstAt_cons_of_ne hne]
    · next h =>
      obtain ⟨ha, hs, hf⟩ := @ih (n.location :: seen)
      refine ⟨List.pairwise_cons.2 ⟨?_, ha⟩, ?_, fun l hl => ?_⟩
      · intro m hm he
        exact hs m hm (he ▸ List.mem_cons_self)
      · intro m hm
        rcases List.mem_cons.1 hm with rfl | hm
        · exact h
        · exact fun hmem => hs m hm (List.mem_cons_of_mem _ hmem)
      · by_cases he : n.location = l
        · subst he
          rw [firstAt_cons_self, firstAt_cons_self]
        · rw [firstAt_cons_of_ne he, firstAt_cons_of_ne he]
          refine hf l fun hmem => ?_
          rcases List.mem_cons.1 hmem with rfl | hmem
          · exact he rfl
          · exact hl hmem

theorem firstsBeside_keepsFirsts (ns : List Node) : KeepsFirsts (firstsBeside [] ns) ns := by
  obtain ⟨ha, -, hf⟩ := @firstsBeside_spec [] ns
  exact ⟨ha, fun l => hf l List.not_mem_nil⟩

/-- Behind other nodes, what has been seen are their locations. -/
theorem firstsBeside_append (before ns : List Node) {seen : List Location}
    (hseen : ∀ l, l ∈ seen ↔ ∃ m ∈ before, m.location = l) :
    firstsBeside seen ns = ((ns.zipIdx before.length).filter fun p =>
      ((before ++ ns).take p.2).all fun m => m.location ≠ p.1.location).map (·.1) := by
  induction ns generalizing before seen with
  | nil => rfl
  | cons n ns ih =>
    have htake : ((before ++ n :: ns).take before.length).all (fun m => decide (m.location ≠ n.location)) = true ↔
        n.location ∉ seen := by
      simp [hseen]
    have hnext : before ++ n :: ns = (before ++ [n]) ++ ns := by simp
    have hlength : before.length + 1 = (before ++ [n]).length := by simp
    rw [firstsBeside, List.zipIdx_cons, List.filter_cons]
    by_cases h : n.location ∈ seen
    · have hstill : ∀ l, l ∈ seen ↔ ∃ m ∈ before ++ [n], m.location = l := by
        intro l
        obtain ⟨k, hk, hl⟩ := (hseen _).1 h
        rw [hseen]
        constructor
        · rintro ⟨m, hm, rfl⟩
          exact ⟨m, List.mem_append_left _ hm, rfl⟩
        · rintro ⟨m, hm, rfl⟩
          rcases List.mem_append.1 hm with hm | hm
          · exact ⟨m, hm, rfl⟩
          · obtain rfl := List.mem_singleton.1 hm
            exact ⟨k, hk, hl⟩
      rw [if_pos h, if_neg (fun ht => htake.1 ht h), ih (before ++ [n]) hstill, hnext, hlength]
    · have hmore : ∀ l, l ∈ n.location :: seen ↔ ∃ m ∈ before ++ [n], m.location = l := by
        intro l
        simp only [List.mem_cons, hseen, List.mem_append, List.not_mem_nil, or_false]
        constructor
        · rintro (rfl | ⟨m, hm, rfl⟩)
          · exact ⟨n, .inr rfl, rfl⟩
          · exact ⟨m, .inl hm, rfl⟩
        · rintro ⟨m, hm | rfl, rfl⟩
          · exact .inr ⟨m, hm, rfl⟩
          · exact .inl rfl
      rw [if_neg h, if_pos (htake.2 h), List.map_cons, ih (before ++ [n]) hmore, hnext, hlength]

theorem firstsBeside_eq_firsts (ns : List Node) : firstsBeside [] ns = firsts ns :=
  firstsBeside_append [] ns (by simp)

theorem firstsBeside_eq_self {seen : List Location} {ns : List Node}
    (ha : ns.Pairwise fun n m => n.location ≠ m.location) (hs : ∀ n ∈ ns, n.location ∉ seen) :
    firstsBeside seen ns = ns := by
  induction ns generalizing seen with
  | nil => rfl
  | cons n ns ih =>
    obtain ⟨hn, ha⟩ := List.pairwise_cons.1 ha
    rw [firstsBeside, if_neg (hs n List.mem_cons_self), ih ha]
    intro m hm hmem
    rcases List.mem_cons.1 hmem with he | hmem
    · exact hn m hm he.symm
    · exact hs m (List.mem_cons_of_mem _ hm) hmem

theorem dropRepeats_ascending (ns : List Node) :
    (dropRepeats (sortNodes ns)).Pairwise fun n m => Before n.location m.location :=
  (dropRepeats_spec (sortNodes_pairwise ns)).1

theorem dropRepeats_keepsFirsts (ns : List Node) : KeepsFirsts (dropRepeats (sortNodes ns)) ns := by
  refine ⟨(dropRepeats_ascending ns).imp fun hb => hb.ne, fun l => ?_⟩
  rw [(dropRepeats_spec (sortNodes_pairwise ns)).2, firstAt_sortNodes]

namespace Flags

/-- Whatever the order, of repeated locations the first node stays. -/
theorem arrange_keepsFirsts {f : Flags} (h : f.isDistinct = true) (ns : List Node) : KeepsFirsts (f.arrange ns) ns := by
  have hd := dropRepeats_keepsFirsts ns
  simp only [arrange, h, if_true]
  split
  · split
    · exact hd.reverse
    · exact hd
  · exact firstsBeside_keepsFirsts ns

/-- Arranging again what has been arranged with each location once changes nothing. -/
theorem arrange_arrange {f : Flags} (h : f.isDistinct = true) (ns : List Node) :
    f.arrange (f.arrange ns) = f.arrange ns := by
  have hkept := arrange_keepsFirsts h ns
  -- sorting has only one result, of these nodes as of the nodes that they are the first of
  have hsort : dropRepeats (sortNodes (f.arrange ns)) = dropRepeats (sortNodes ns) :=
    ((dropRepeats_keepsFirsts _).trans hkept).eq_of_ascending (dropRepeats_keepsFirsts ns) (dropRepeats_ascending _)
      (dropRepeats_ascending ns)
  by_cases hs : f.isSorted = true
  · have hf : ∀ ks, f.arrange ks = if f.isDescending then (dropRepeats (sortNodes ks)).reverse
        else dropRepeats (sortNodes ks) := by
      intro ks
      simp only [arrange, hs, h, if_true]
    rw [hf (f.arrange ns), hsort, ← hf]
  · have hf : ∀ ks, f.arrange ks = firstsBeside [] ks := by
      intro ks
      simp only [arrange, hs, h, if_true, if_false, Bool.false_eq_true]
    rw [hf (f.arrange ns)]
    exact firstsBeside_eq_self hkept.apart fun _ _ => List.not_mem_nil

theorem contains_union_self (f g : Flags) : (f.union g).contains g = true := by
  have hbits : (f.bits ||| g.bits) &&& g.bits = g.bits := by
    apply UInt8.toBitVec_inj.1
    rw [UInt8.toBitVec_and, UInt8.toBitVec_or]
    ext i hi
    rw [BitVec.getElem_and, BitVec.getElem_or]
    cases g.bits.toBitVec[i] <;> simp
  show ((f.bits ||| g.bits) &&& g.bits == g.bits) = true
  rw [hbits]
  exact beq_self_eq_true _

/-- Where all locations are different, to ask for each location once changes nothing. -/
theorem arrange_union_distinct (f : Flags) {ns : List Node} (ha : ns.Pairwise fun n m => n.location ≠ m.location) :
    (f.union .distinct).arrange ns = f.arrange ns := by
  have hsorted : dropRepeats (sortNodes ns) = sortNodes ns := by
    have hapart : (sortNodes ns).Pairwise fun n m => n.location ≠ m.location :=
      ((List.mergeSort_perm ns _).pairwise_iff fun h => h.symm).2 ha
    have hascending : (sortNodes ns).Pairwise fun n m => Before n.location m.location :=
      (hapart.and (sortNodes_pairwise ns)).imp fun h => (le_iff.1 h.2).resolve_left h.1
    exact (dropRepeats_keepsFirsts ns).eq_of_ascending ⟨hapart, firstAt_sortNodes ns⟩ (dropRepeats_ascending ns)
      hascending
  have hfirsts : firstsBeside [] ns = ns := firstsBeside_eq_self ha fun _ _ => List.not_mem_nil
  have hdescending : (f.union .distinct).isDescending = f.isDescending := contains_union rfl f
  have hdistinct : (f.union .distinct).isDistinct = true := f.contains_union_self .distinct
  have hsort : (f.union .distinct).isSorted = f.isSorted := by
    rw [isSorted, isSorted, contains_union rfl, contains_union rfl]
  rw [arrange, arrange, hdescending, hdistinct, hsort]
  simp only [hsorted, hfirsts, ite_self]

/-- What the flags ask of the answer that is made of some matches. -/
structure Orders (f : Flags) (ns answer : List Node) : Prop where
  /-- Without flags of order the matches stay as they are. -/
  found : f.contains distinct = false → f.contains ascending = false → f.contains descending = false → answer = ns
  /-- With each location once, the first match at each stays in its place. -/
  firsts : f.contains distinct = true → f.contains ascending = false → f.contains descending = false →
    answer = firsts ns
  /-- Sorting loses nothing, and keeps the order of matches at one location. -/
  sorted : f.contains distinct = false → f.contains ascending = true → f.contains descending = false →
    answer.Perm ns ∧ answer.Pairwise (fun n m => n.location = m.location ∨ Before n.location m.location) ∧
      ∀ l, answer.filter (·.location = l) = ns.filter (·.location = l)
  /-- Sorted with each location once, the first match at each location is left. -/
  increasing : f.contains distinct = true → f.contains ascending = true → f.contains descending = false →
    answer.Pairwise (fun n m => Before n.location m.location) ∧ ∀ n, n ∈ answer ↔ firstAt ns n.location = some n
  /-- Descending is the reverse of ascending, which need not be asked for. -/
  reversed : f.contains descending = true → ∀ g : Flags, g.contains distinct = f.contains distinct →
    g.contains ascending = true → g.contains descending = false → answer = (g.arrange ns).reverse
  decreasing : f.contains distinct = true → f.contains descending = true →
    answer.Pairwise fun n m => Before m.location n.location
  /-- Where each location comes once the matches are the same in every order. -/
  sameMatches : f.contains distinct = true → ∀ g : Flags, g.contains distinct = true → answer.Perm (g.arrange ns)
  again : f.contains distinct = true → f.arrange answer = answer

theorem arrange_orders (f : Flags) (ns : List Node) : f.Orders ns (f.arrange ns) := by
  constructor
  · intro hd ha hr
    simp only [arrange, isSorted, isDistinct, hd, ha, hr]
    rfl
  · intro hd ha hr
    rw [← firstsBeside_eq_firsts]
    simp only [arrange, isSorted, isDistinct, hd, ha, hr]
    rfl
  · intro hd ha hr
    have he : f.arrange ns = sortNodes ns := by
      simp only [arrange, isSorted, isDistinct, isDescending, hd, ha, hr]
      rfl
    rw [he]
    exact ⟨List.mergeSort_perm ns _, (sortNodes_pairwise ns).imp fun hl => le_iff.1 hl, filter_sortNodes ns⟩
  · intro hd ha hr
    have he : f.arrange ns = dropRepeats (sortNodes ns) := by
      simp only [arrange, isSorted, isDistinct, isDescending, hd, ha, hr]
      rfl
    rw [he]
    exact ⟨dropRepeats_ascending ns, fun _ => (dropRepeats_keepsFirsts ns).mem⟩
  · intro hr g hd ha hg
    simp only [arrange, isSorted, isDistinct, isDescending, hr, hd, ha, hg, Bool.or_true, Bool.true_or, if_true,
      Bool.false_eq_true, if_false]
    rfl
  · intro hd hr
    have he : f.arrange ns = (dropRepeats (sortNodes ns)).reverse := by
      simp only [arrange, isSorted, isDistinct, isDescending, hd, hr, Bool.or_true, if_true]
    rw [he, List.pairwise_reverse]
    exact dropRepeats_ascending ns
  · intro hd g hg
    exact (arrange_keepsFirsts hd ns).perm (arrange_keepsFirsts hg ns)
  · intro hd
    exact arrange_arrange hd ns

end Flags

namespace Query

/-- The locations of matches are those of the first at each location, in ascending order. -/
theorem locations_of_matchesOf (q : Query) (doc : Value) :
    (∀ e, (q.matchesOf .plain doc).result = .error e → (q.locations doc).result = .error e) ∧
      ∀ ms, (q.matchesOf .plain doc).result = .ok ms → ∃ ls, (q.locations doc).result = .ok ls ∧
        ls.Pairwise Before ∧ ∀ l, l ∈ ls ↔ ∃ v, (l, v) ∈ ms := by
  have hlocations : (q.locations doc).result =
      (q.search true doc).result.map fun m => (dropRepeats (sortNodes m.nodes)).map (·.location) := by
    show ((q.search true doc).result.map _).map _ = _
    cases (q.search true doc).result <;> rfl
  rw [hlocations, matchesOf_result]
  cases (q.search true doc).result with
  | error e =>
    refine ⟨fun _ he => ?_, nofun⟩
    cases he
    rfl
  | ok m =>
    refine ⟨nofun, fun ms hms => ?_⟩
    cases hms
    have hkept := dropRepeats_keepsFirsts m.nodes
    refine ⟨_, rfl, List.pairwise_map.2 (dropRepeats_ascending m.nodes), fun l => ?_⟩
    constructor
    · intro hl
      obtain ⟨n, hn, rfl⟩ := List.mem_map.1 hl
      exact ⟨n.value, List.mem_map.2 ⟨n, firstAt_mem (hkept.mem.1 hn), rfl⟩⟩
    · intro hl
      obtain ⟨v, hv⟩ := hl
      obtain ⟨n, hn, he⟩ := List.mem_map.1 hv
      cases he
      obtain ⟨k, hk⟩ := exists_firstAt hn
      refine List.mem_map.2 ⟨k, hkept.mem.2 ?_, firstAt_location hk⟩
      rw [firstAt_location hk]
      exact hk

/-- Whatever the flags, an answer is made of the matches as the flags ask. So the locations of a query are those of its
matches, each once and in ascending order. -/
theorem answers_ordered (q : Query) :
    (∀ (f : Flags) (ns : List Node), f.Orders ns (f.arrange ns)) ∧
    (∀ (f : Flags) (doc : Value), (q.nodes f doc).result =
      (q.search f.tracksLocations doc).result.map fun m => f.arrange m.nodes) ∧
    ∀ doc, (∀ e, (q.matchesOf .plain doc).result = .error e → (q.locations doc).result = .error e) ∧
      ∀ ms, (q.matchesOf .plain doc).result = .ok ms → ∃ ls, (q.locations doc).result = .ok ls ∧
        ls.Pairwise Before ∧ ∀ l, l ∈ ls ↔ ∃ v, (l, v) ∈ ms :=
  ⟨Flags.arrange_orders, fun _ _ => rfl, q.locations_of_matchesOf⟩

/-- Of three matches the third is at the location of the first, with another value. -/
theorem answers_ordered_repeated :
    (∃ a b c : Node, a.location = c.location ∧ a.value ≠ c.value ∧ Flags.distinct.arrange [a, b, c] = [a, b] ∧
      (∀ n, n ∈ (Flags.distinct.union .ascending).arrange [a, b, c] ↔ firstAt [a, b, c] n.location = some n) ∧
      (Flags.distinct.union .descending).arrange [a, b, c] =
        ((Flags.distinct.union .ascending).arrange [a, b, c]).reverse) ∧
    ∃ q ms ls, compileWith (.standard []) "$[1,0,1]" = .ok q ∧
      (q.matchesOf .plain (.array [.null, .null])).result = .ok ms ∧ ms.length = 3 ∧
      (q.locations (.array [.null, .null])).result = .ok ls ∧ ls.Pairwise Before ∧ [.index 1] ∈ ls := by
  have h : compileWith (.standard []) "$[1,0,1]" = .ok ⟨[.root, .path [.root 0, .union [[.current, .path [.index 1]],
      [.current, .path [.index 0]], [.current, .path [.index 1]]]]]⟩ := compileWith_of_runFor (k := 30) rfl
  constructor
  · have hq := (answers_ordered ⟨[]⟩).1
    refine ⟨⟨[.index 1], .null, true⟩, ⟨[.index 0], .null, true⟩, ⟨[.index 1], .bool true, true⟩, rfl, nofun, ?_, ?_,
      ?_⟩
    · exact ((hq .distinct _).firsts rfl rfl rfl).trans rfl
    · exact ((hq (Flags.distinct.union .ascending) _).increasing rfl rfl rfl).2
    · exact (hq (Flags.distinct.union .descending) _).reversed rfl (Flags.distinct.union .ascending) rfl rfl rfl
  · obtain ⟨ls, hls, hp, hmem⟩ := ((answers_ordered ⟨[.root, .path [.root 0, .union [[.current, .path [.index 1]],
      [.current, .path [.index 0]], [.current, .path [.index 1]]]]]⟩).2.2 (.array [.null, .null])).2 _ rfl
    exact ⟨_, _, ls, h, rfl, rfl, hls, hp, (hmem _).2 ⟨.null, List.mem_cons_self⟩⟩

end Query

end PathQuery
