import PathQuery.Proofs.Location.Rewrite
import PathQuery.Proofs.Query.Visits
import PathQuery.Standard

namespace PathQuery

open Location

namespace Value

/-- Changes the nodes at some locations and keeps all others. -/
def changeOnly (f : Location → Value → Value) (P : Location → Prop) [DecidablePred P] (l : Location) (v : Value) :
    Value :=
  if P l then f l v else v

variable {f : Location → Value → Value} {ls : List Location} {l : Location} {doc : Value}

theorem changeOnly_of_mem (h : l ∈ ls) : changeOnly f (· ∈ ls) l = f l := by
  funext v
  rw [changeOnly, if_pos h]

theorem changeOnly_of_not_mem (h : l ∉ ls) (v : Value) : changeOnly f (· ∈ ls) l v = v := by
  rw [changeOnly, if_neg h]

theorem updateAt_append (f : Location → Value → Value) (doc : Value) (ls ms : List Location) :
    (doc.updateAt f (ls ++ ms)).doc = ((doc.updateAt f ls).doc.updateAt f ms).doc := by
  induction ls generalizing doc with
  | nil => rfl
  | cons l ls ih =>
    rw [List.cons_append, updateAt, updateAt]
    split
    · exact ih _
    · exact ih doc

theorem updateAt_single {v v' : Value} (hv : get? l doc = some v)
    (hc : change? (fun w => some (f l w)) l doc = some v') : (doc.updateAt f [l]).doc = v' := by
  rw [updateAt, hv, hc]
  rfl

/-- The changes one by one, last first, are one pass. -/
theorem updateAt_eq_rewrite (f : Location → Value → Value) (hp : ls.Pairwise fun l m => Before m l)
    (he : ∀ l ∈ ls, (get? l doc).isSome = true) (hd : doc.Distinct) :
    (doc.updateAt f ls).doc = doc.rewrite (changeOnly f (· ∈ ls)) := by
  -- from the end of the list: the pass so far has kept the last node and all nodes above it
  induction ls using List.reverseRecOn with
  | nil => exact (rewrite_eq_self (fun l => changeOnly_of_not_mem List.not_mem_nil) doc).symm
  | append_singleton ls l ih =>
    obtain ⟨hls, -, hl⟩ := List.pairwise_append.1 hp
    have hbefore : ∀ m ∈ ls, Before l m := fun m hm => hl m hm l (by simp)
    have hkept : ∀ k m, k ++ m = l → ∀ w, changeOnly f (· ∈ ls) k w = w := by
      intro k m hk
      apply changeOnly_of_not_mem
      intro hm
      exact (hbefore k hm).not_append m hk.symm
    have hsome : (get? l doc).isSome = true := he l (by simp)
    have hrest : (doc.updateAt f ls).doc = doc.rewrite (changeOnly f (· ∈ ls)) := by
      apply ih hls
      intro m hm
      exact he m (by simp [hm])
    have hget : get? l (doc.rewrite (changeOnly f (· ∈ ls))) =
        (get? l doc).map (rewrite fun m => changeOnly f (· ∈ ls) (l ++ m)) := by
      apply get?_rewrite
      intro k s m hk
      exact hkept k (s :: m) hk
    have hchange : change? (fun w => some (f l w)) l (doc.rewrite (changeOnly f (· ∈ ls))) =
        some (doc.rewrite (changeOnly f (· ∈ ls ++ [l]))) := by
      apply change?_rewrite hd hsome hkept
      · exact changeOnly_of_mem (by simp)
      · intro m hm
        funext w
        simp [changeOnly, hm]
    obtain ⟨v, hv⟩ := Option.isSome_iff_exists.1 hsome
    rw [hv] at hget
    rw [updateAt_append, hrest, updateAt_single hget hchange]

section Kept

variable {v w : Value}

/-- A node at a location that is worked on, with none above it, becomes what the function makes of it. -/
theorem get?_rewrite_changeOnly (hl : l ∈ ls) (htop : ∀ k s m, k ++ s :: m = l → k ∉ ls) (hw : get? l doc = some w) :
    get? l (doc.rewrite (changeOnly f (· ∈ ls))) =
      some (f l (rebuild (fun m => changeOnly f (· ∈ ls) (l ++ m)) w)) := by
  rw [get?_rewrite fun k s m hk => changeOnly_of_not_mem (htop k s m hk), hw, Option.map_some, rewrite]
  rw [root, List.append_nil, changeOnly_of_mem hl]

/-- A node that is neither at nor below a location that is worked on keeps its outline. -/
theorem get?_rewrite_outline (hl : ∀ k m, k ++ m = l → k ∉ ls) :
    (get? l (doc.rewrite (changeOnly f (· ∈ ls)))).map outline = (get? l doc).map outline := by
  rw [get?_rewrite fun k s m hk => changeOnly_of_not_mem (hl k (s :: m) hk), Option.map_map]
  congr 1
  funext v
  show (rewrite (fun m => changeOnly f (· ∈ ls) (l ++ m)) v).outline = v.outline
  have hself : changeOnly f (· ∈ ls) l = id := funext fun w => changeOnly_of_not_mem (hl l [] (List.append_nil l)) w
  rw [rewrite, root, List.append_nil, hself, id, outline_rebuild]

/-- A node stays as it is if no location that is worked on is at it, above it or below it. -/
theorem get?_rewrite_of_apart (hl : ∀ k m, k ++ m = l → k ∉ ls) (hbelow : ∀ m, l ++ m ∉ ls) :
    get? l (doc.rewrite (changeOnly f (· ∈ ls))) = get? l doc := by
  rw [get?_rewrite fun k s m hk => changeOnly_of_not_mem (hl k (s :: m) hk)]
  have hid : rewrite (fun m => changeOnly f (· ∈ ls) (l ++ m)) = id := by
    funext v
    exact rewrite_eq_self (fun m => changeOnly_of_not_mem (hbelow m)) v
  rw [hid, Option.map_id, id]

end Kept

end Value

namespace Query

variable {env : Env} {text : String} {q : Query} {doc : Value} {ls : List Location}

theorem update_of_locations (hls : (q.documentLocations doc).result = .ok ls) (f : Location → Value → Value) :
    (q.update f doc).result = .ok (doc.updateAt f ls) := by
  show (q.documentLocations doc).result.map _ = _
  rw [hls]
  rfl

/-- An update visits all locations that it works on, and leaves the document of one pass from the bottom up that
changes the nodes at these locations. So replacing puts the new value at the topmost of them and changes nothing that is
neither at nor below one of them. -/
theorem update_rewrites (h : compileWith env text = .ok q) (hd : doc.Distinct)
    (hls : (q.documentLocations doc).result = .ok ls) :
    (∀ f, ∃ edited, (q.update f doc).result = .ok edited ∧ edited.visited.map (·.1) = ls ∧
      edited.visited.length = ls.length ∧ edited.doc = doc.rewrite fun l v => if l ∈ ls then f l v else v) ∧
    ∀ new, ∃ edited, (q.replace new doc).result = .ok edited ∧ edited.visited.length = ls.length ∧
      (∀ l ∈ ls, (∀ k s m, k ++ s :: m = l → k ∉ ls) → l.get? edited.doc = some new) ∧
      (∀ l : Location, (∀ k m, k ++ m = l → k ∉ ls) →
        (l.get? edited.doc).map Value.outline = (l.get? doc).map Value.outline ∧
        ((∀ m, l ++ m ∉ ls) → l.get? edited.doc = l.get? doc)) := by
  have hsearch := documentLocations_result q doc
  rw [hls] at hsearch
  obtain ⟨m, hm, rfl⟩ := map_eq_ok hsearch.symm
  have hexist := editLocations_exist h hd hm
  have hvisited := fun f => Value.updateAt_visited f (editLocations_pairwise m.nodes) hexist
  have hlength : ∀ f, (doc.updateAt f (editLocations m.nodes)).visited.length = (editLocations m.nodes).length := by
    intro f
    rw [← congrArg List.length (hvisited f), List.length_map]
  have hdoc := fun f => Value.updateAt_eq_rewrite f (editLocations_pairwise m.nodes) hexist hd
  constructor
  · intro f
    exact ⟨_, update_of_locations hls f, hvisited f, hlength f, hdoc f⟩
  · intro new
    refine ⟨_, update_of_locations hls _, hlength _, ?_, ?_⟩
    · intro l hl htop
      obtain ⟨w, hw⟩ := Option.isSome_iff_exists.1 (hexist l hl)
      rw [hdoc]
      exact Value.get?_rewrite_changeOnly hl htop hw
    · intro l hl
      rw [hdoc]
      exact ⟨Value.get?_rewrite_outline hl, Value.get?_rewrite_of_apart hl⟩

/-- The first elements at every depth are put into arrays, one of them with another that has been put into one. -/
theorem update_rewrites_first_elements :
    ∃ q edited, compileWith (.standard []) "$..[0]" = .ok q ∧
      (q.documentLocations (.array [.array [.null], .array [.bool true, .bool false]])).result =
        .ok [[.index 1, .index 0], [.index 0, .index 0], [.index 0]] ∧
      (q.update (fun _ v => .array [v]) (.array [.array [.null], .array [.bool true, .bool false]])).result =
        .ok edited ∧
      edited.visited.length = 3 ∧
      edited.doc = .array [.array [.array [.array [.null]]], .array [.array [.bool true], .bool false]] := by
  have h : compileWith (.standard []) "$..[0]" = .ok ⟨[.root, .path [.root 0, .descend, .index 0]]⟩ :=
    compileWith_of_runFor (k := 40) rfl
  have hd : (Value.array [.array [.null], .array [.bool true, .bool false]]).Distinct := by
    simp [Value.Distinct, Value.members, Members.names]
  have hls : ((⟨[.root, .path [.root 0, .descend, .index 0]]⟩ : Query).documentLocations
      (.array [.array [.null], .array [.bool true, .bool false]])).result =
        .ok [[.index 1, .index 0], [.index 0, .index 0], [.index 0]] := by
    rw [documentLocations_result]
    exact congrArg Except.ok (editLocations_of_pairwise (by decide))
  obtain ⟨edited, hedited, -, hlength, hdoc⟩ := (update_rewrites h hd hls).1 fun _ v => .array [v]
  exact ⟨_, edited, h, hls, hedited, hlength, hdoc⟩

end Query

end PathQuery
