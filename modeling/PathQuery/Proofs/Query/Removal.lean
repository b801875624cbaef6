import PathQuery.Proofs.Location.Prune
import PathQuery.Proofs.Query.Visits
import PathQuery.Standard

namespace PathQuery

open Location

/-- The removals one by one, last first, are one pass. Only the root, which comes last, is not removed. -/
theorem Value.removeAt_eq_prune {doc : Value} {ls : List Location} (hp : ls.Pairwise fun l m => Before m l)
    (he : ∀ l ∈ ls, (l.get? doc).isSome = true) (hd : doc.Distinct) :
    doc.removeAt ls = (doc.prune fun l => decide (l ∈ ls), (ls.filter fun l => decide (l ≠ root)).length) := by
  induction ls generalizing doc with
  | nil =>
    rw [removeAt, prune_eq_self doc fun s l => by simp]
    rfl
  | cons l ls ih =>
    obtain ⟨hl, hrest⟩ := List.pairwise_cons.1 hp
    by_cases hr : l = root
    · subst hr
      have hls : ls = [] := by
        apply List.eq_nil_iff_forall_not_mem.2
        intro m hm
        exact not_before_root m (hl m hm)
      subst hls
      rw [prune_eq_self doc fun s l => by simp [root]]
      rfl
    · obtain ⟨doc', hdoc'⟩ := Option.isSome_iff_exists.1 (remove?_isSome hr (he l (by simp)))
      have he' : ∀ m ∈ ls, (m.get? doc').isSome = true := by
        intro m hm
        exact get?_remove?_isSome hdoc' (hl m hm) (he m (List.mem_cons_of_mem _ hm))
      have hprune : doc.prune (fun m => decide (m ∈ ls) || decide (m = l)) = doc'.prune fun m => decide (m ∈ ls) :=
        prune_remove? hdoc' hd fun m hm => hl m (by simpa using hm)
      have hmem : (fun m => decide (m ∈ l :: ls)) = fun m => decide (m ∈ ls) || decide (m = l) := by
        funext m
        rw [Bool.eq_iff_iff]
        simp [or_comm]
      rw [removeAt, hdoc', hmem, hprune, List.filter_cons_of_pos (by simpa using hr)]
      show ((doc'.removeAt ls).1, (doc'.removeAt ls).2 + 1) = _
      rw [ih hrest he' (remove?_distinct hdoc' hd)]
      rfl

namespace Query

variable {env : Env} {text : String} {q : Query} {doc : Value} {ls : List Location}

theorem remove_of_ok (hls : (q.documentLocations doc).result = .ok ls) :
    (q.remove doc).result = .ok (doc.removeAt ls) := by
  show (q.documentLocations doc).result.map _ = _
  rw [hls]
  rfl

/-- Removing the matches leaves the document without the nodes at the locations that are worked on and without all that
is below them, and counts those locations, where in both the root is left out. -/
theorem remove_prunes (h : compileWith env text = .ok q) (hd : doc.Distinct)
    (hls : (q.documentLocations doc).result = .ok ls) :
    (q.remove doc).result = .ok (doc.prune (Value.isUnder ls), (ls.filter fun l => decide (l ≠ root)).length) := by
  have hsearch := documentLocations_result q doc
  rw [hls] at hsearch
  obtain ⟨m, hm, rfl⟩ := map_eq_ok hsearch.symm
  have hremove := Value.removeAt_eq_prune (editLocations_pairwise m.nodes) (editLocations_exist h hd hm) hd
  rw [Value.prune_covers doc (Value.covers_isUnder _)] at hremove
  rw [remove_of_ok hls, hremove]

/-- The first elements at every depth, one of them in another. -/
theorem remove_prunes_first_elements :
    ∃ q, compileWith (.standard []) "$..[0]" = .ok q ∧
      (q.documentLocations (.array [.array [.null], .array [.bool true, .bool false]])).result =
        .ok [[.index 1, .index 0], [.index 0, .index 0], [.index 0]] ∧
      (q.remove (.array [.array [.null], .array [.bool true, .bool false]])).result =
        .ok (.array [.array [.bool false]], 3) := by
  have h : compileWith (.standard []) "$..[0]" = .ok ⟨[.root, .path [.root 0, .descend, .index 0]]⟩ :=
    compileWith_of_runFor (k := 40) rfl
  have hd : (Value.array [.array [.null], .array [.bool true, .bool false]]).Distinct := by
    simp [Value.Distinct, Value.members, Members.names]
  have hls : ((⟨[.root, .path [.root 0, .descend, .index 0]]⟩ : Query).documentLocations
      (.array [.array [.null], .array [.bool true, .bool false]])).result =
        .ok [[.index 1, .index 0], [.index 0, .index 0], [.index 0]] := by
    rw [documentLocations_result]
    exact congrArg Except.ok (editLocations_of_pairwise (by decide))
  exact ⟨_, h, hls, remove_prunes h hd hls⟩

/-- Every other node is below the root, but nothing is removed with it. -/
theorem remove_keeps_below_root :
    ∃ q, compileWith (.standard []) "$" = .ok q ∧
      (q.documentLocations (.object [("a", .ofInt 1)])).result = .ok [.root] ∧
      (q.remove (.object [("a", .ofInt 1)])).result = .ok (.object [("a", .ofInt 1)], 0) ∧
      (Value.object [("a", .ofInt 1)]).prune (fun l => [Location.root].any (·.isPrefixOf l)) = .object [] ∧
      (q.remove (.object [("a", .ofInt 1)])).result ≠
        .ok ((Value.object [("a", .ofInt 1)]).prune fun l => [Location.root].any (·.isPrefixOf l), 0) := by
  have h : compileWith (.standard []) "$" = .ok ⟨[.root, .path [.root 0]]⟩ := compileWith_of_runFor (k := 40) rfl
  have hls : ((⟨[.root, .path [.root 0]]⟩ : Query).documentLocations (.object [("a", .ofInt 1)])).result =
      .ok [.root] := by
    rw [documentLocations_result]
    exact congrArg Except.ok (editLocations_of_pairwise (by decide))
  refine ⟨_, h, hls, remove_of_ok hls, rfl, ?_⟩
  intro he
  rw [remove_of_ok hls] at he
  have hdoc : Value.object [("a", .ofInt 1)] = .object [] := congrArg Prod.fst (Except.ok.inj he)
  cases hdoc

end Query

end PathQuery
