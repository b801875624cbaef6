import PathQuery.Proofs.Location.Edit
import PathQuery.Proofs.Query.Arrange
import PathQuery.Proofs.Query.Standing
import PathQuery.Query.Edit
import PathQuery.Standard

namespace PathQuery

open Location

theorem Value.updateAt_visited_sublist (f : Location → Value → Value) (doc : Value) (ls : List Location) :
    ((doc.updateAt f ls).visited.map (·.1)).Sublist ls := by
  induction ls generalizing doc with
  | nil => exact .slnil
  | cons l ls ih =>
    rw [updateAt]
    split
    · exact (ih _).cons_cons l
    · exact (ih doc).cons l

/-- Locations that come last first are all visited if they exist. -/
theorem Value.updateAt_visited (f : Location → Value → Value) {doc : Value} {ls : List Location}
    (hp : ls.Pairwise fun l m => Before m l) (he : ∀ l ∈ ls, (l.get? doc).isSome = true) :
    (doc.updateAt f ls).visited.map (·.1) = ls := by
  induction ls generalizing doc with
  | nil => rfl
  | cons l ls ih =>
    obtain ⟨hl, hrest⟩ := List.pairwise_cons.1 hp
    obtain ⟨v, hv⟩ := Option.isSome_iff_exists.1 (he l (by simp))
    have hc : (change? (fun v => some (f l v)) l doc).isSome = true :=
      change?_isSome (he l (by simp)) fun _ => rfl
    obtain ⟨doc', hdoc'⟩ := Option.isSome_iff_exists.1 hc
    have hvisited : (doc.updateAt f (l :: ls)).visited = (l, v) :: (doc'.updateAt f ls).visited := by
      rw [updateAt, hv, hdoc']
    rw [hvisited, List.map_cons, ih hrest]
    intro m hm
    rw [get?_change?_isSome hdoc' (hl m hm).not_append]
    exact he m (List.mem_cons_of_mem _ hm)

namespace Query

variable {env : Env} {text : String} {q : Query} {doc : Value} {m : Matches}

theorem documentLocations_result (q : Query) (doc : Value) :
    (q.documentLocations doc).result = (q.search true doc).result.map fun m => editLocations m.nodes := by
  show ((q.search true doc).result.map _).map _ = _
  cases (q.search true doc).result <;> rfl

/-- Every location that an edit works on exists. -/
theorem editLocations_exist (h : compileWith env text = .ok q) (hd : doc.Distinct)
    (hm : (q.search true doc).result = .ok m) : ∀ l ∈ editLocations m.nodes, (l.get? doc).isSome = true := by
  intro l hl
  obtain ⟨n, hn, hc⟩ := mem_editLocations.1 hl
  have hs := search_stand h hd hm n (firstAt_mem hn) hc
  rw [← firstAt_location hn, hs]
  rfl

theorem update_of_ok (hm : (q.search true doc).result = .ok m) (f : Location → Value → Value) :
    (q.update f doc).result = .ok (doc.updateAt f (editLocations m.nodes)) := by
  show (q.documentLocations doc).result.map _ = _
  rw [documentLocations_result, hm]
  rfl

theorem update_of_error {e : EvalError} (he : (q.search true doc).result = .error e)
    (f : Location → Value → Value) : (q.update f doc).result = .error e := by
  show (q.documentLocations doc).result.map _ = _
  rw [documentLocations_result, he]
  rfl

/-- If a query fails an edit fails likewise and visits nothing. Otherwise it visits each location at which the first
match stands in the document, once and in descending order. So it visits every match that stands in the document just
if no computed match has been found before one at the same location. -/
theorem update_visits (h : compileWith env text = .ok q) (hd : doc.Distinct) (f : Location → Value → Value) :
    (∀ e, (q.search true doc).result = .error e → (q.update f doc).result = .error e) ∧
    ∀ m, (q.search true doc).result = .ok m → ∃ edited, (q.update f doc).result = .ok edited ∧
      (edited.visited.map (·.1)).Pairwise (fun l k => Before k l) ∧
      (∀ l, l ∈ edited.visited.map (·.1) ↔ ∃ n, firstAt m.nodes l = some n ∧ n.computed = false) ∧
      ((∀ l, l ∈ edited.visited.map (·.1) ↔ ∃ n ∈ m.nodes, n.location = l ∧ n.computed = false) ↔
        ∀ n ∈ m.nodes, n.computed = false →
          ∀ k, firstAt m.nodes n.location = some k → k.computed = false) := by
  refine ⟨fun e he => update_of_error he f, ?_⟩
  intro m hm
  have hvisited : (doc.updateAt f (editLocations m.nodes)).visited.map (·.1) = editLocations m.nodes :=
    Value.updateAt_visited f (editLocations_pairwise m.nodes) (editLocations_exist h hd hm)
  refine ⟨_, update_of_ok hm f, ?_⟩
  rw [hvisited]
  refine ⟨editLocations_pairwise m.nodes, fun _ => mem_editLocations, ?_⟩
  constructor
  · intro hall n hn hc k hk
    obtain ⟨first, hfirst, hfc⟩ := mem_editLocations.1 ((hall n.location).2 ⟨n, hn, rfl, hc⟩)
    obtain rfl : first = k := Option.some.inj (hfirst.symm.trans hk)
    exact hfc
  · intro hfirst l
    rw [mem_editLocations]
    constructor
    · intro hex
      obtain ⟨n, hn, hc⟩ := hex
      exact ⟨n, firstAt_mem hn, firstAt_location hn, hc⟩
    · intro hex
      obtain ⟨n, hn, rfl, hc⟩ := hex
      obtain ⟨k, hk⟩ := exists_firstAt hn
      exact ⟨k, hk, hfirst n hn hc k hk⟩

/-- An element that is matched twice is visited once. -/
theorem update_visits_element :
    ∃ q m edited, compileWith (.standard []) "$[0,0]" = .ok q ∧ (q.search true (.array [.null])).result = .ok m ∧
      (q.update (fun _ v => v) (.array [.null])).result = .ok edited ∧
      (edited.visited.map (·.1)).Pairwise (fun l k => Before k l) ∧ [.index 0] ∈ edited.visited.map (·.1) := by
  have h : compileWith (.standard []) "$[0,0]" = .ok ⟨[.root, .path [.root 0,
      .union [[.current, .path [.index 0]], [.current, .path [.index 0]]]]]⟩ := compileWith_of_runFor (k := 20) rfl
  have hd : (Value.array [.null]).Distinct := by simp [Value.Distinct, Value.members, Members.names]
  obtain ⟨edited, he, hp, hv, -⟩ := (update_visits h hd fun _ v => v).2 _ rfl
  exact ⟨_, _, edited, h, rfl, he, hp, (hv _).2 ⟨_, rfl, rfl⟩⟩

/-- The document itself is a match, but it is found behind an array of its keys, which has no location of its own. -/
theorem update_passes_over_root :
    ∃ q m edited, compileWith (.standard []) "keys($)[@,$]" = .ok q ∧
      (q.search true (.object [("a", .ofInt 1)])).result = .ok m ∧
      (q.update (fun _ _ => .ofInt 0) (.object [("a", .ofInt 1)])).result = .ok edited ∧
      (∃ n ∈ m.nodes, n.location = .root ∧ n.computed = false) ∧ Location.root ∉ edited.visited.map (·.1) := by
  have h : compileWith (.standard []) "keys($)[@,$]" = .ok ⟨[.current,
      .path [.call (Library.unary "keys" Library.keys) [[.root, .path [.root 0]]],
        .union [[.current, .path [.current]], [.root, .path [.root 1]]]]]⟩ := compileWith_of_runFor (k := 40) rfl
  refine ⟨_, _, _, h, rfl, update_of_ok rfl _, ⟨_, List.mem_cons_of_mem _ (List.mem_cons_self ..), rfl, rfl⟩, ?_⟩
  intro hm
  obtain ⟨n, hn, hc⟩ := mem_editLocations.1 ((Value.updateAt_visited_sublist _ _ _).subset hm)
  cases hn
  cases hc

end Query

end PathQuery
