import PathQuery.Proofs.Location.Rewrite

namespace PathQuery

namespace Value

theorem outline_array (vs : List Value) : (array vs).outline = array (List.replicate vs.length null) := by
  rw [outline, List.map_const']

theorem outline_object (ms : Members Value) :
    (object ms).outline = object ((Members.names ms).map fun name => (name, null)) := by
  rw [outline, Members.names, List.map_map]
  rfl

end Value

namespace Members

variable {α : Type}

/-- Where names are different, a member is removed by leaving out its name. -/
theorem erase_eq_filter {name : String} {ms : Members α} (h : (names ms).Nodup) :
    erase name ms = ms.filter fun m => m.1 ≠ name := by
  induction ms with
  | nil => rfl
  | cons m ms ih =>
    obtain ⟨n, v⟩ := m
    obtain ⟨hn, hms⟩ := List.nodup_cons.1 h
    rw [erase]
    by_cases hname : n = name
    · subst hname
      have hrest : ∀ m ∈ ms, decide (m.1 ≠ n) = true := by
        intro m hm
        refine decide_eq_true fun he => hn ?_
        rw [← he]
        exact List.mem_map.2 ⟨m, hm, rfl⟩
      rw [if_pos rfl, List.filter_cons_of_neg (by simp), List.filter_eq_self.2 hrest]
    · rw [if_neg hname, List.filter_cons_of_pos (by simpa using hname), ih hms]

theorem find?_erase_self {name : String} {ms : Members α} (h : (names ms).Nodup) :
    find? name (erase name ms) = none := by
  refine find?_of_not_mem ?_
  rw [erase_eq_filter h]
  intro hmem
  obtain ⟨m, hm, he⟩ := List.mem_map.1 hmem
  exact (of_decide_eq_true (List.mem_filter.1 hm).2) he

end Members

/-- A change below a step keeps what is seen of a value from above. -/
theorem Step.outline_change? {f : Value → Option Value} {s : Step} {v v' : Value} (h : s.change? f v = some v') :
    v'.outline = v.outline := by
  cases s with
  | index i =>
    cases v with
    | array vs =>
      obtain ⟨ws, hws, rfl⟩ := Option.map_eq_some_iff.1 h
      obtain ⟨w, w', -, -, rfl⟩ := Location.changeElement?_eq hws
      rw [Value.outline_array, Value.outline_array, List.length_set]
    | _ => cases h
  | name u =>
    cases v with
    | object ms =>
      obtain ⟨ns, hns, rfl⟩ := Option.map_eq_some_iff.1 h
      obtain ⟨-, hnames, -, -⟩ := Location.changeMember?_eq hns
      rw [Value.outline_object, Value.outline_object, hnames]
    | _ => cases h

namespace Location

variable {f : Value → Option Value} {l m p : Location} {s : Step} {d d' v w w' : Value}

/-- A change gives a document where there is a node from which something is made, and then the location leads to
this. -/
theorem get?_change? (h : change? f l d = some d') :
    ∃ w w', get? l d = some w ∧ f w = some w' ∧ ∀ k, get? (l ++ k) d' = get? k w' := by
  induction l generalizing d d' with
  | nil => exact ⟨d, d', rfl, h, fun k => rfl⟩
  | cons s l ih =>
    rw [change?_cons] at h
    obtain ⟨⟨w, w', hw, hf, hw'⟩, -⟩ := Step.change?_eq h
    obtain ⟨u, u', hu, hfu, hbelow⟩ := ih hf
    refine ⟨u, u', ?_, hfu, fun k => ?_⟩
    · rw [get?, hw]
      exact hu
    · rw [List.cons_append, get?, hw']
      exact hbelow k

/-- What is apart from a location is not touched by a change there. -/
theorem get?_change?_of_apart (h : change? f l d = some d') (hm : ¬l <+: m) (hl : ¬m <+: l) :
    get? m d' = get? m d := by
  induction l generalizing m d d' with
  | nil => exact absurd List.nil_prefix hm
  | cons s l ih =>
    rw [change?_cons] at h
    obtain ⟨⟨w, w', hw, hf, hw'⟩, hothers⟩ := Step.change?_eq h
    cases m with
    | nil => exact absurd List.nil_prefix hl
    | cons t m =>
      rw [get?, get?]
      by_cases ht : t = s
      · subst ht
        rw [hw, hw']
        refine ih hf (fun hp => hm ?_) (fun hp => hl ?_)
        · exact List.cons_prefix_cons.2 ⟨rfl, hp⟩
        · exact List.cons_prefix_cons.2 ⟨rfl, hp⟩
      · rw [hothers t ht]

/-- Neither above a location nor apart from it does a change there alter an outline. -/
theorem outline_change? (h : change? f l d = some d') (hm : ¬l <+: m) :
    (get? m d').map Value.outline = (get? m d).map Value.outline := by
  induction l generalizing m d d' with
  | nil => exact absurd List.nil_prefix hm
  | cons s l ih =>
    rw [change?_cons] at h
    obtain ⟨⟨w, w', hw, hf, hw'⟩, hothers⟩ := Step.change?_eq h
    cases m with
    | nil => exact congrArg some (Step.outline_change? h)
    | cons t m =>
      rw [get?, get?]
      by_cases ht : t = s
      · subst ht
        rw [hw, hw']
        refine ih hf fun hp => hm ?_
        exact List.cons_prefix_cons.2 ⟨rfl, hp⟩
      · rw [hothers t ht]

theorem replace?_isSome : (replace? l v d).isSome = (get? l d).isSome := by
  rw [Bool.eq_iff_iff]
  constructor
  · intro h
    obtain ⟨d', hd'⟩ := Option.isSome_iff_exists.1 h
    obtain ⟨w, -, hw, -⟩ := get?_change? hd'
    rw [hw]
    rfl
  · intro h
    exact change?_isSome h fun _ => rfl

theorem remove?_concat (p : Location) (s : Step) (d : Value) :
    remove? (p.child s) d = change? (eraseChild? · s) p d := by
  simp only [remove?, child, List.getLast?_concat, List.dropLast_concat]

theorem isSome_child?_of_eraseChild? (h : eraseChild? w s = some w') : (s.child? w).isSome = true := by
  cases s with
  | index i =>
    cases w with
    | array vs =>
      simp only [eraseChild?, Value.eraseElement?] at h
      split at h
      · next hi =>
        have hget : vs[i]?.isSome = true := by simpa using hi
        exact hget
      · cases h
    | _ => cases h
  | name u =>
    cases w with
    | object ms =>
      simp only [eraseChild?, Value.eraseMember?] at h
      split at h
      · next hm => exact hm
      · cases h
    | _ => cases h

theorem remove?_isSome_eq : (remove? l d).isSome = (decide (l ≠ root) && (get? l d).isSome) := by
  rcases List.eq_nil_or_concat l with rfl | ⟨p, s, rfl⟩
  · rfl
  rw [List.concat_eq_append]
  have hne : p ++ [s] ≠ root := by simp [root]
  rw [Bool.eq_iff_iff, decide_eq_true hne, Bool.true_and]
  constructor
  · intro h
    obtain ⟨d', hd'⟩ := Option.isSome_iff_exists.1 h
    rw [← child, remove?_concat] at hd'
    obtain ⟨w, w', hw, hf, -⟩ := get?_change? hd'
    rw [← child, get?_child, hw]
    exact isSome_child?_of_eraseChild? hf
  · exact remove?_isSome hne

/-- The parent behind a removal. -/
theorem get?_remove? (h : remove? (p.child s) d = some d') :
    ∃ w w', get? p d = some w ∧ eraseChild? w s = some w' ∧ ∀ k, get? (p ++ k) d' = get? k w' := by
  rw [remove?_concat] at h
  exact get?_change? h

/-- Behind a removed element the others move down. -/
theorem get?_remove?_index {i : Nat} (h : remove? (p.child (.index i)) d = some d') :
    ∃ vs, get? p d = some (.array vs) ∧ get? p d' = some (.array (vs.eraseIdx i)) ∧
      (∀ j k, j < i → get? (p ++ .index j :: k) d' = get? (p ++ .index j :: k) d) ∧
      ∀ j k, i < j → get? (p ++ .index (j - 1) :: k) d' = get? (p ++ .index j :: k) d := by
  obtain ⟨w, w', hw, herase, hbelow⟩ := get?_remove? h
  obtain ⟨vs, rfl, rfl⟩ : ∃ vs, w = .array vs ∧ w' = .array (vs.eraseIdx i) := by
    cases w with
    | array vs =>
      simp only [eraseChild?, Value.eraseElement?] at herase
      split at herase
      · cases herase
        exact ⟨vs, rfl, rfl⟩
      · cases herase
    | _ => cases herase
  have hp := hbelow root
  rw [root, List.append_nil] at hp
  refine ⟨vs, hw, hp, fun j k hj => ?_, fun j k hj => ?_⟩
  · have hget : (vs.eraseIdx i)[j]? = vs[j]? := List.getElem?_eraseIdx_of_lt hj
    rw [hbelow, get?_append, hw]
    exact congrArg (Option.bind · (get? k)) hget
  · have hget : (vs.eraseIdx i)[j - 1]? = vs[j]? := by
      rw [List.getElem?_eraseIdx_of_ge (by omega)]
      congr 1
      omega
    rw [hbelow, get?_append, hw]
    exact congrArg (Option.bind · (get? k)) hget

/-- A removed member is gone, and the others are where they were. -/
theorem get?_remove?_name {name : String} (hd : d.Distinct) (h : remove? (p.child (.name name)) d = some d') :
    ∃ ms, get? p d = some (.object ms) ∧ get? p d' = some (.object (ms.filter fun m => m.1 ≠ name)) ∧
      (∀ k, get? (p ++ .name name :: k) d' = none) ∧
      ∀ other k, other ≠ name → get? (p ++ .name other :: k) d' = get? (p ++ .name other :: k) d := by
  obtain ⟨w, w', hw, herase, hbelow⟩ := get?_remove? h
  obtain ⟨ms, rfl, rfl⟩ : ∃ ms, w = .object ms ∧ w' = .object (Members.erase name ms) := by
    cases w with
    | object ms =>
      simp only [eraseChild?, Value.eraseMember?] at herase
      split at herase
      · cases herase
        exact ⟨ms, rfl, rfl⟩
      · cases herase
    | _ => cases herase
  have hnames : (Members.names ms).Nodup := Value.Distinct.names (everywhere_get? hd hw)
  have hp := hbelow root
  rw [root, List.append_nil, Members.erase_eq_filter hnames] at hp
  refine ⟨ms, hw, hp, fun k => ?_, fun other k ho => ?_⟩
  · have hget : Members.find? name (Members.erase name ms) = none := Members.find?_erase_self hnames
    rw [hbelow]
    exact congrArg (Option.bind · (get? k)) hget
  · have hget : Members.find? other (Members.erase name ms) = Members.find? other ms :=
      Members.find?_erase_of_ne ho ms
    rw [hbelow, get?_append, hw]
    exact congrArg (Option.bind · (get? k)) hget

/-- The document behind an edit, the same as before if the edit fails, and whether the edit has been made. -/
def edited (edit : Value → Option Value) (doc : Value) : Value × Bool := ((edit doc).getD doc, (edit doc).isSome)

theorem edited_eq_true {edit : Value → Option Value} (h : edited edit d = (d', true)) : edit d = some d' := by
  rw [edited, Prod.mk.injEq] at h
  obtain ⟨u, hu⟩ := Option.isSome_iff_exists.1 h.2
  rw [hu] at h ⊢
  exact congrArg some h.1

theorem edited_of_false {edit : Value → Option Value} (h : (edited edit d).2 = false) : (edited edit d).1 = d := by
  have hnone : edit d = none := Option.isSome_eq_false_iff.1 h |> Option.isNone_iff_eq_none.1
  rw [edited, hnone]
  rfl

/-- Replacing a node succeeds where there is one, and puts the value there; it leaves what is apart from it as it was,
and of what is above it the outlines. Removing a node succeeds where there is one that is not the root; the elements
behind it move down, the members around it keep their order, and what is neither below its parent nor above it is as
it was. An edit that fails changes nothing. -/
theorem edits_keep_others (hd : d.Distinct) (l : Location) (v : Value) :
    ((edited (replace? l v) d).2 = (get? l d).isSome ∧
      ((edited (replace? l v) d).2 = false → (edited (replace? l v) d).1 = d) ∧
      ∀ d', edited (replace? l v) d = (d', true) →
        (∀ k, get? (l ++ k) d' = get? k v) ∧
        (∀ m, ¬l <+: m → ¬m <+: l → get? m d' = get? m d) ∧
        ∀ m, ¬l <+: m → (get? m d').map Value.outline = (get? m d).map Value.outline) ∧
    ((edited (remove? l) d).2 = (decide (l ≠ root) && (get? l d).isSome) ∧
      ((edited (remove? l) d).2 = false → (edited (remove? l) d).1 = d) ∧
      ∀ d' (p : Location) (s : Step), edited (remove? l) d = (d', true) → l = p.child s →
        (∀ m, ¬p <+: m → ¬m <+: p → get? m d' = get? m d) ∧
        (∀ m, ¬p <+: m → (get? m d').map Value.outline = (get? m d).map Value.outline) ∧
        (∀ i, s = .index i → ∃ vs, get? p d = some (.array vs) ∧ get? p d' = some (.array (vs.eraseIdx i)) ∧
          (∀ j k, j < i → get? (p ++ .index j :: k) d' = get? (p ++ .index j :: k) d) ∧
          ∀ j k, i < j → get? (p ++ .index (j - 1) :: k) d' = get? (p ++ .index j :: k) d) ∧
        ∀ name, s = .name name → ∃ ms, get? p d = some (.object ms) ∧
          get? p d' = some (.object (ms.filter fun m => m.1 ≠ name)) ∧
          (∀ k, get? (p ++ .name name :: k) d' = none) ∧
          ∀ other k, other ≠ name → get? (p ++ .name other :: k) d' = get? (p ++ .name other :: k) d) := by
  refine ⟨⟨replace?_isSome, edited_of_false, fun d' h => ?_⟩, remove?_isSome_eq, edited_of_false, ?_⟩
  · have h := edited_eq_true h
    obtain ⟨w, w', -, hw', hbelow⟩ := get?_change? h
    cases hw'
    exact ⟨hbelow, fun m => get?_change?_of_apart h, fun m => outline_change? h⟩
  · rintro d' p s h rfl
    have h := edited_eq_true h
    have hchange := h
    rw [remove?_concat] at hchange
    refine ⟨fun m => get?_change?_of_apart hchange, fun m => outline_change? hchange, ?_, ?_⟩
    · rintro i rfl
      exact get?_remove?_index h
    · rintro name rfl
      exact get?_remove?_name hd h

/-- The second of two elements moves down, and a member beside their array stays where it is. -/
theorem edits_keep_others_element :
    let d : Value := .object [("a", .array [.null, .object [("b", .bool true)]]), ("c", .bool false)]
    d.Distinct ∧ ∃ d', edited (remove? [.name "a", .index 0]) d = (d', true) ∧
      get? [.name "a", .index 0, .name "b"] d' = get? [.name "a", .index 1, .name "b"] d ∧
      get? [.name "c"] d' = get? [.name "c"] d := by
  intro d
  have hd : d.Distinct := by simp [d, Value.Distinct, Value.members, Members.names]
  obtain ⟨-, -, -, h⟩ := edits_keep_others hd [.name "a", .index 0] .null
  obtain ⟨hapart, -, hindex, -⟩ := h _ [.name "a"] (.index 0) rfl rfl
  obtain ⟨vs, -, -, -, hbehind⟩ := hindex 0 rfl
  exact ⟨hd, _, rfl, hbehind 1 [.name "b"] (by decide), hapart [.name "c"] (by decide) (by decide)⟩

/-- What is above the parent of a removed node is not below the parent, and does not lead to the same value as before:
the node is gone from it. -/
theorem remove_changes_above :
    let d : Value := .object [("a", .array [.null])]
    let d' : Value := .object [("a", .array [])]
    edited (remove? [.name "a", .index 0]) d = (d', true) ∧ (∀ s k, root ≠ [.name "a"] ++ s :: k) ∧
      get? root d' ≠ get? root d := by
  refine ⟨rfl, by simp [root], ?_⟩
  simp [get?, root]

end Location

end PathQuery
