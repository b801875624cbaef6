import PathQuery.Proofs.Json.Edges
import PathQuery.Proofs.Location.Order

namespace PathQuery

namespace Members

variable {α : Type}

theorem find?_erase_of_ne {name other : String} (h : other ≠ name) (ms : Members α) :
    find? other (erase name ms) = find? other ms := by
  induction ms with
  | nil => rfl
  | cons m ms ih =>
    obtain ⟨n, v⟩ := m
    rw [erase]
    by_cases hn : n = name
    · subst hn
      rw [if_pos rfl, find?_cons, if_neg (Ne.symm h)]
    · rw [if_neg hn, find?_cons, find?_cons, ih]

theorem erase_sublist (name : String) (ms : Members α) : (erase name ms).Sublist ms := by
  induction ms with
  | nil => exact .slnil
  | cons m ms ih =>
    obtain ⟨n, v⟩ := m
    rw [erase]
    by_cases hn : n = name
    · rw [if_pos hn]
      exact List.sublist_cons_self _ _
    · rw [if_neg hn]
      exact ih.cons_cons _

end Members

namespace Location

variable {f : Value → Option Value} {v v' : Value}

theorem changeElement?_eq {i : Nat} {vs vs' : List Value} (h : changeElement? f i vs = some vs') :
    ∃ w w', vs[i]? = some w ∧ f w = some w' ∧ vs' = vs.set i w' := by
  induction vs generalizing i vs' with
  | nil => cases i <;> cases h
  | cons u vs ih =>
    cases i with
    | zero =>
      obtain ⟨w', hw, rfl⟩ := Option.map_eq_some_iff.1 h
      exact ⟨u, w', rfl, hw, rfl⟩
    | succ i =>
      obtain ⟨ws, hws, rfl⟩ := Option.map_eq_some_iff.1 h
      obtain ⟨w, w', hw, hf, rfl⟩ := ih hws
      exact ⟨w, w', by simpa using hw, hf, rfl⟩

theorem changeElement?_isSome {i : Nat} {vs : List Value} {w : Value} (hi : vs[i]? = some w)
    (hf : (f w).isSome = true) : (changeElement? f i vs).isSome = true := by
  induction vs generalizing i with
  | nil => simp at hi
  | cons u vs ih =>
    cases i with
    | zero =>
      obtain rfl : u = w := by simpa using hi
      simpa [changeElement?] using hf
    | succ i =>
      have hr := ih (i := i) (by simpa using hi)
      simpa [changeElement?] using hr

theorem changeMember?_isSome {name : String} {ms : Members Value} {w : Value}
    (hi : Members.find? name ms = some w) (hf : (f w).isSome = true) : (changeMember? f name ms).isSome = true := by
  induction ms with
  | nil => cases hi
  | cons m ms ih =>
    obtain ⟨n, u⟩ := m
    rw [Members.find?_cons] at hi
    rw [changeMember?]
    by_cases hn : n = name
    · rw [if_pos hn] at hi ⊢
      cases hi
      simpa using hf
    · rw [if_neg hn] at hi ⊢
      simpa using ih hi

/-- Changing a member keeps the names, and the values of the other members. -/
theorem changeMember?_eq {name : String} {ms ms' : Members Value} (h : changeMember? f name ms = some ms') :
    (∃ w w', Members.find? name ms = some w ∧ f w = some w' ∧ Members.find? name ms' = some w') ∧
      Members.names ms' = Members.names ms ∧
      (∀ other, other ≠ name → Members.find? other ms' = Members.find? other ms) ∧
      ∀ m ∈ ms', m ∈ ms ∨ ∃ w, (name, w) ∈ ms ∧ f w = some m.2 := by
  induction ms generalizing ms' with
  | nil => cases h
  | cons m ms ih =>
    obtain ⟨n, u⟩ := m
    rw [changeMember?] at h
    by_cases hn : n = name
    · subst hn
      rw [if_pos rfl] at h
      obtain ⟨w', hw, rfl⟩ := Option.map_eq_some_iff.1 h
      refine ⟨⟨u, w', ?_, hw, ?_⟩, rfl, ?_, ?_⟩
      · rw [Members.find?_cons, if_pos rfl]
      · rw [Members.find?_cons, if_pos rfl]
      · intro other ho
        rw [Members.find?_cons, Members.find?_cons, if_neg (Ne.symm ho), if_neg (Ne.symm ho)]
      · intro m hm
        rcases List.mem_cons.1 hm with rfl | hm
        · exact .inr ⟨u, by simp, hw⟩
        · exact .inl (List.mem_cons_of_mem _ hm)
    · rw [if_neg hn] at h
      obtain ⟨ns, hns, rfl⟩ := Option.map_eq_some_iff.1 h
      obtain ⟨⟨w, w', hw, hf, hw'⟩, hnames, hothers, hmem⟩ := ih hns
      refine ⟨⟨w, w', ?_, hf, ?_⟩, ?_, ?_, ?_⟩
      · rw [Members.find?_cons, if_neg hn, hw]
      · rw [Members.find?_cons, if_neg hn, hw']
      · simpa [Members.names] using hnames
      · intro other ho
        rw [Members.find?_cons, Members.find?_cons, hothers other ho]
      · intro m hm
        rcases List.mem_cons.1 hm with rfl | hm
        · exact .inl (by simp)
        · rcases hmem m hm with hm | ⟨w, hw, hf⟩
          · exact .inl (List.mem_cons_of_mem _ hm)
          · exact .inr ⟨w, List.mem_cons_of_mem _ hw, hf⟩

end Location

namespace Step

variable {f : Value → Option Value} {s t : Step} {v v' w : Value}

/-- Replaces the child that a step leads to by what `f` makes of it. -/
def change? (s : Step) (f : Value → Option Value) : Value → Option Value := Location.change? f [s]

theorem change?_isSome (hc : s.child? v = some w) (hf : (f w).isSome = true) : (s.change? f v).isSome = true := by
  cases s with
  | index i =>
    cases v with
    | array vs =>
      have h : (Location.changeElement? f i vs).isSome = true := Location.changeElement?_isSome hc hf
      simpa [change?, Location.change?] using h
    | _ => simp [child?, Value.element?, Value.elements] at hc
  | name u =>
    cases v with
    | object ms =>
      have h : (Location.changeMember? f u ms).isSome = true := Location.changeMember?_isSome hc hf
      simpa [change?, Location.change?] using h
    | _ => simp [child?, Value.member?, Value.members] at hc

/-- A change at a step changes the child that the step leads to, and no other. -/
theorem change?_eq (h : s.change? f v = some v') :
    (∃ w w', s.child? v = some w ∧ f w = some w' ∧ s.child? v' = some w') ∧
      ∀ t, t ≠ s → t.child? v' = t.child? v := by
  cases s with
  | index i =>
    cases v with
    | array vs =>
      obtain ⟨ws, hws, rfl⟩ := Option.map_eq_some_iff.1 h
      obtain ⟨w, w', hw, hf, rfl⟩ := Location.changeElement?_eq hws
      have hi : i < vs.length := (List.getElem?_eq_some_iff.1 hw).1
      refine ⟨⟨w, w', hw, hf, ?_⟩, ?_⟩
      · show (vs.set i w')[i]? = some w'
        rw [List.getElem?_set_self hi]
      · intro t ht
        cases t with
        | index j =>
          show (vs.set i w')[j]? = vs[j]?
          rw [List.getElem?_set_ne]
          intro he
          subst he
          exact ht rfl
        | name u => rfl
    | _ => cases h
  | name u =>
    cases v with
    | object ms =>
      obtain ⟨ns, hns, rfl⟩ := Option.map_eq_some_iff.1 h
      obtain ⟨hchild, -, hothers, -⟩ := Location.changeMember?_eq hns
      refine ⟨hchild, ?_⟩
      intro t ht
      cases t with
      | index j => rfl
      | name other =>
        refine hothers other ?_
        intro he
        subst he
        exact ht rfl
    | _ => cases h

theorem change?_distinct (h : s.change? f v = some v') (hf : ∀ w w', f w = some w' → w.Distinct → w'.Distinct)
    (hd : v.Distinct) : v'.Distinct := by
  cases s with
  | index i =>
    cases v with
    | array vs =>
      obtain ⟨ws, hws, rfl⟩ := Option.map_eq_some_iff.1 h
      obtain ⟨w, w', hw, hfw, rfl⟩ := Location.changeElement?_eq hws
      have hvs := (Value.everywhere_array.1 hd).2
      refine Value.everywhere_array.2 ⟨List.nodup_nil, ?_⟩
      intro u hu
      rcases List.mem_or_eq_of_mem_set hu with hu | rfl
      · exact hvs u hu
      · exact hf w u hfw (hvs w (List.mem_of_getElem? hw))
    | _ => cases h
  | name u =>
    cases v with
    | object ms =>
      obtain ⟨ns, hns, rfl⟩ := Option.map_eq_some_iff.1 h
      obtain ⟨-, hnames, -, hmem⟩ := Location.changeMember?_eq hns
      obtain ⟨hn, hms⟩ := Value.everywhere_object.1 hd
      refine Value.everywhere_object.2 ⟨?_, ?_⟩
      · show (Members.names ns).Nodup
        rw [hnames]
        exact hn
      · intro m hm
        rcases hmem m hm with hm | ⟨w, hw, hfw⟩
        · exact hms m hm
        · exact hf w m.2 hfw (hms _ hw)
    | _ => cases h

end Step

namespace Location

variable {f : Value → Option Value} {l m : Location} {s : Step} {v v' : Value}

theorem change?_cons (f : Value → Option Value) (s : Step) (l : Location) (v : Value) :
    change? f (s :: l) v = s.change? (change? f l) v := by
  cases s <;> cases v <;> rfl

theorem isSome_get?_cons {t : Step} :
    (get? (t :: m) v).isSome = true ↔ ∃ w, t.child? v = some w ∧ (get? m w).isSome = true := by
  rw [get?]
  cases t.child? v <;> simp

theorem change?_isSome (hl : (get? l v).isSome = true) (hf : ∀ w, (f w).isSome = true) :
    (change? f l v).isSome = true := by
  induction l generalizing v with
  | nil => exact hf v
  | cons s l ih =>
    obtain ⟨w, hw, hl⟩ := isSome_get?_cons.1 hl
    rw [change?_cons]
    exact Step.change?_isSome hw (ih hl)

/-- What is not below a location stays where it is when the location is changed. -/
theorem get?_change?_isSome (h : change? f l v = some v') (hm : ∀ k, m ≠ l ++ k) :
    (get? m v').isSome = (get? m v).isSome := by
  induction l generalizing m v v' with
  | nil => exact absurd rfl (hm m)
  | cons s l ih =>
    rw [change?_cons] at h
    obtain ⟨⟨w, w', hw, hf, hw'⟩, hothers⟩ := Step.change?_eq h
    cases m with
    | nil => rfl
    | cons t m =>
      rw [get?, get?]
      by_cases ht : t = s
      · subst ht
        rw [hw, hw']
        refine ih hf ?_
        intro k hk
        exact hm k (by rw [hk]; rfl)
      · rw [hothers t ht]

theorem remove?_child (s : Step) (v : Value) : remove? (s :: root) v = eraseChild? v s := rfl

theorem remove?_cons (hl : l ≠ root) (s : Step) (v : Value) : remove? (s :: l) v = s.change? (remove? l) v := by
  cases l with
  | nil => exact absurd rfl hl
  | cons t l =>
    obtain ⟨u, hu⟩ : ∃ u, (t :: l).getLast? = some u := Option.isSome_iff_exists.1 (by simp)
    unfold remove?
    simp only [List.getLast?_cons_cons, List.dropLast_cons_cons, hu]
    exact change?_cons _ s _ v

theorem eraseChild?_isSome {w : Value} (h : s.child? v = some w) : (eraseChild? v s).isSome = true := by
  cases s with
  | index i =>
    cases v with
    | array vs =>
      have hi : i < vs.length := (List.getElem?_eq_some_iff.1 h).1
      simp [eraseChild?, Value.eraseElement?, hi]
    | _ => simp [Step.child?, Value.element?, Value.elements] at h
  | name u =>
    cases v with
    | object ms =>
      have hm : Members.find? u ms = some w := h
      simp [eraseChild?, Value.eraseMember?, hm]
    | _ => simp [Step.child?, Value.member?, Value.members] at h

/-- Every node but the root can be removed. -/
theorem remove?_isSome (hl : l ≠ root) (h : (get? l v).isSome = true) : (remove? l v).isSome = true := by
  induction l generalizing v with
  | nil => exact absurd rfl hl
  | cons s l ih =>
    obtain ⟨w, hw, hlw⟩ := isSome_get?_cons.1 h
    by_cases hr : l = root
    · subst hr
      rw [remove?_child]
      exact eraseChild?_isSome hw
    · rw [remove?_cons hr]
      exact Step.change?_isSome hw (ih hr hlw)

/-- Removing a child keeps the children that come before it where they are. -/
theorem child?_eraseChild? (h : eraseChild? v s = some v') {t : Step} (ht : t.order s = .lt) :
    t.child? v' = t.child? v := by
  cases s with
  | index i =>
    cases v with
    | array vs =>
      simp only [eraseChild?, Value.eraseElement?] at h
      split at h
      · cases h
        cases t with
        | index j =>
          have hji : j < i := Nat.compare_eq_lt.1 ht
          show (vs.eraseIdx i)[j]? = vs[j]?
          rw [List.getElem?_eraseIdx_of_lt hji]
        | name u => cases ht
      · cases h
    | _ => cases h
  | name u =>
    cases v with
    | object ms =>
      simp only [eraseChild?, Value.eraseMember?] at h
      split at h
      · cases h
        cases t with
        | index j => rfl
        | name other =>
          refine Members.find?_erase_of_ne ?_ ms
          intro he
          subst he
          have he : Step.order (.name other) (.name other) = .eq := Std.ReflCmp.compare_self
          rw [he] at ht
          cases ht
      · cases h
    | _ => cases h

/-- What comes before a location stays where it is when the location is removed. -/
theorem get?_remove?_isSome (h : remove? l v = some v') (hm : Before m l) (he : (get? m v).isSome = true) :
    (get? m v').isSome = true := by
  induction l generalizing m v v' with
  | nil => cases h
  | cons s l ih =>
    cases m with
    | nil => rfl
    | cons t m =>
      obtain ⟨w, hw, hmw⟩ := isSome_get?_cons.1 he
      refine isSome_get?_cons.2 ?_
      by_cases hr : l = root
      · subst hr
        rw [remove?_child] at h
        have ht : t.order s = .lt := by
          rcases before_cons_cons.1 hm with ht | ⟨-, hm⟩
          · exact ht
          · exact absurd hm (not_before_root m)
        exact ⟨w, (child?_eraseChild? h ht).trans hw, hmw⟩
      · rw [remove?_cons hr] at h
        obtain ⟨⟨u, u', hu, hf, hu'⟩, hothers⟩ := Step.change?_eq h
        by_cases ht : t = s
        · subst ht
          obtain rfl : u = w := Option.some.inj (hu.symm.trans hw)
          exact ⟨u', hu', ih hf (before_cons_self.1 hm) hmw⟩
        · exact ⟨w, (hothers t ht).trans hw, hmw⟩

theorem eraseChild?_distinct (h : eraseChild? v s = some v') (hd : v.Distinct) : v'.Distinct := by
  cases s with
  | index i =>
    cases v with
    | array vs =>
      simp only [eraseChild?, Value.eraseElement?] at h
      split at h
      · cases h
        have hvs := (Value.everywhere_array.1 hd).2
        refine Value.everywhere_array.2 ⟨List.nodup_nil, ?_⟩
        intro w hw
        exact hvs w (List.mem_of_mem_eraseIdx hw)
      · cases h
    | _ => cases h
  | name u =>
    cases v with
    | object ms =>
      simp only [eraseChild?, Value.eraseMember?] at h
      split at h
      · cases h
        obtain ⟨hn, hms⟩ := Value.everywhere_object.1 hd
        have hs := Members.erase_sublist u ms
        refine Value.everywhere_object.2 ⟨(hs.map _).nodup hn, ?_⟩
        intro m hm
        exact hms m (hs.subset hm)
      · cases h
    | _ => cases h

theorem remove?_distinct (h : remove? l v = some v') (hd : v.Distinct) : v'.Distinct := by
  induction l generalizing v v' with
  | nil => cases h
  | cons s l ih =>
    by_cases hr : l = root
    · subst hr
      exact eraseChild?_distinct h hd
    · rw [remove?_cons hr] at h
      exact Step.change?_distinct h (fun _ _ hf hw => ih hf hw) hd

end Location

end PathQuery
