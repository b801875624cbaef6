import PathQuery.Proofs.Location.Edit

namespace PathQuery

open Location

namespace Value

mutual

/-- Drops the nodes below a value whose locations, counted from the value, are to be dropped. -/
def prune (drop : Location → Bool) : Value → Value
  | array vs => array (pruneElements drop 0 vs)
  | object ms => object (pruneMembers drop ms)
  | null => null
  | bool b => bool b
  | number n => number n
  | string s => string s

/-- Drops elements, the first of which has index `i`. -/
def pruneElements (drop : Location → Bool) (i : Nat) : List Value → List Value
  | [] => []
  | v :: vs =>
    if drop [.index i] then pruneElements drop (i + 1) vs
    else prune (fun l => drop (.index i :: l)) v :: pruneElements drop (i + 1) vs

def pruneMembers (drop : Location → Bool) : List (String × Value) → List (String × Value)
  | [] => []
  | (name, v) :: ms =>
    if drop [.name name] then pruneMembers drop ms
    else (name, prune (fun l => drop (.name name :: l)) v) :: pruneMembers drop ms

end

/-- What is left of a child in one pass. -/
def pruneChild (drop : Location → Bool) (s : Step) (v : Value) : Option Value :=
  if drop [s] then none else some (prune (fun l => drop (s :: l)) v)

theorem pruneElements_cons (drop : Location → Bool) (i : Nat) (v : Value) (vs : List Value) :
    pruneElements drop i (v :: vs) = (pruneChild drop (.index i) v).toList ++ pruneElements drop (i + 1) vs := by
  rw [pruneElements, pruneChild]
  split <;> rfl

theorem pruneMembers_cons (drop : Location → Bool) (name : String) (v : Value) (ms : List (String × Value)) :
    pruneMembers drop ((name, v) :: ms) =
      ((pruneChild drop (.name name) v).map fun w => (name, w)).toList ++ pruneMembers drop ms := by
  rw [pruneMembers, pruneChild]
  split <;> rfl

/-- Two ways to say what is dropped agree on a child and all that is below it. -/
def AgreeAt (drop drop' : Location → Bool) (s : Step) : Prop := ∀ l, drop (s :: l) = drop' (s :: l)

variable {drop drop' : Location → Bool}

theorem AgreeAt.pruneChild_eq {s : Step} (h : AgreeAt drop drop' s) (v : Value) :
    pruneChild drop s v = pruneChild drop' s v := by
  have hl : (fun l => drop (s :: l)) = fun l => drop' (s :: l) := funext h
  rw [pruneChild, pruneChild, h [], hl]

theorem pruneElements_congr {i : Nat} {vs : List Value} (h : ∀ j, i ≤ j → AgreeAt drop drop' (.index j)) :
    pruneElements drop i vs = pruneElements drop' i vs := by
  induction vs generalizing i with
  | nil => simp [pruneElements]
  | cons v vs ih =>
    have hrest : ∀ j, i + 1 ≤ j → AgreeAt drop drop' (.index j) := fun j hj => h j (by omega)
    rw [pruneElements_cons, pruneElements_cons, (h i (Nat.le_refl i)).pruneChild_eq, ih hrest]

theorem pruneMembers_congr {ms : List (String × Value)}
    (h : ∀ name ∈ Members.names ms, AgreeAt drop drop' (.name name)) :
    pruneMembers drop ms = pruneMembers drop' ms := by
  induction ms with
  | nil => simp [pruneMembers]
  | cons m ms ih =>
    obtain ⟨name, v⟩ := m
    have hrest : ∀ other ∈ Members.names ms, AgreeAt drop drop' (.name other) :=
      fun other ho => h other (List.mem_cons_of_mem _ ho)
    rw [pruneMembers_cons, pruneMembers_cons, (h name (by simp [Members.names])).pruneChild_eq, ih hrest]

mutual

/-- Where nothing below a value is dropped, nothing changes. -/
theorem prune_eq_self : ∀ {drop : Location → Bool} (v : Value), (∀ s l, drop (s :: l) = false) → prune drop v = v
  | _, .array vs, h => by
    rw [prune, pruneElements_eq_self 0 vs fun j _ l => h (.index j) l]
  | _, .object ms, h => by
    rw [prune, pruneMembers_eq_self ms fun name l => h (.name name) l]
  | _, .null, _ | _, .bool _, _ | _, .number _, _ | _, .string _, _ => by simp [prune]

theorem pruneElements_eq_self : ∀ {drop : Location → Bool} (i : Nat) (vs : List Value),
    (∀ j, i ≤ j → ∀ l, drop (.index j :: l) = false) → pruneElements drop i vs = vs
  | _, _, [], _ => by simp [pruneElements]
  | drop, i, v :: vs, h => by
    have hv : prune (fun l => drop (.index i :: l)) v = v :=
      prune_eq_self v fun s l => h i (Nat.le_refl i) (s :: l)
    have hvs : pruneElements drop (i + 1) vs = vs := pruneElements_eq_self (i + 1) vs fun j hj => h j (by omega)
    rw [pruneElements, h i (Nat.le_refl i), if_neg (by simp), hv, hvs]

theorem pruneMembers_eq_self : ∀ {drop : Location → Bool} (ms : List (String × Value)),
    (∀ name l, drop (.name name :: l) = false) → pruneMembers drop ms = ms
  | _, [], _ => by simp [pruneMembers]
  | drop, (name, v) :: ms, h => by
    have hv : prune (fun l => drop (.name name :: l)) v = v := prune_eq_self v fun s l => h name (s :: l)
    rw [pruneMembers, h name, if_neg (by simp), hv, pruneMembers_eq_self ms h]

end

/-- `drop'` names what `drop` names and all that is below it; the root counts for neither. -/
def Covers (drop drop' : Location → Bool) : Prop :=
  ∀ l, l ≠ root → (drop' l = true ↔ ∃ k m, k ≠ root ∧ k ++ m = l ∧ drop k = true)

theorem Covers.child (h : Covers drop drop') (s : Step) : drop' [s] = drop [s] := by
  rw [Bool.eq_iff_iff, h [s] (by simp [root])]
  constructor
  · intro hk
    obtain ⟨k, m, hk, hkm, hd⟩ := hk
    cases k with
    | nil => exact absurd rfl hk
    | cons t k =>
      obtain ⟨rfl, hnil⟩ := List.cons.inj hkm
      obtain ⟨rfl, rfl⟩ := List.append_eq_nil_iff.1 hnil
      exact hd
  · intro hd
    exact ⟨[s], [], by simp [root], by simp, hd⟩

theorem Covers.below (h : Covers drop drop') {s : Step} (hs : drop [s] = false) :
    Covers (fun l => drop (s :: l)) fun l => drop' (s :: l) := by
  intro l hl
  rw [h (s :: l) (by simp [root])]
  constructor
  · intro hk
    obtain ⟨k, m, hk, hkm, hd⟩ := hk
    cases k with
    | nil => exact absurd rfl hk
    | cons t k =>
      obtain ⟨rfl, htail⟩ := List.cons.inj hkm
      refine ⟨k, m, ?_, htail, hd⟩
      intro hr
      rw [hr] at hd
      exact absurd hd (by simpa [root] using hs)
  · intro hk
    obtain ⟨k, m, -, hkm, hd⟩ := hk
    exact ⟨s :: k, m, by simp [root], by rw [List.cons_append, hkm], hd⟩

theorem Covers.pruneChild_eq (h : Covers drop drop') (s : Step) {v : Value}
    (hv : ∀ {d d' : Location → Bool}, Covers d d' → prune d v = prune d' v) :
    pruneChild drop s v = pruneChild drop' s v := by
  rw [pruneChild, pruneChild, h.child s]
  cases hs : drop [s] with
  | true => rfl
  | false => rw [if_neg (by simp), if_neg (by simp), hv (h.below hs)]

mutual

/-- It makes no difference to name what is below a dropped node. -/
theorem prune_covers : ∀ {drop drop' : Location → Bool} (v : Value), Covers drop drop' → prune drop v = prune drop' v
  | _, _, .array vs, h => by rw [prune, prune, pruneElements_covers 0 vs h]
  | _, _, .object ms, h => by rw [prune, prune, pruneMembers_covers ms h]
  | _, _, .null, _ | _, _, .bool _, _ | _, _, .number _, _ | _, _, .string _, _ => by simp [prune]

theorem pruneElements_covers : ∀ {drop drop' : Location → Bool} (i : Nat) (vs : List Value), Covers drop drop' →
    pruneElements drop i vs = pruneElements drop' i vs
  | _, _, _, [], _ => by simp [pruneElements]
  | _, _, i, v :: vs, h => by
    rw [pruneElements_cons, pruneElements_cons, h.pruneChild_eq (.index i) fun hc => prune_covers v hc]
    rw [pruneElements_covers (i + 1) vs h]

theorem pruneMembers_covers : ∀ {drop drop' : Location → Bool} (ms : List (String × Value)), Covers drop drop' →
    pruneMembers drop ms = pruneMembers drop' ms
  | _, _, [], _ => by simp [pruneMembers]
  | _, _, (name, v) :: ms, h => by
    rw [pruneMembers_cons, pruneMembers_cons, h.pruneChild_eq (.name name) fun hc => prune_covers v hc]
    rw [pruneMembers_covers ms h]

end

section Child

variable {f : Value → Option Value} {s : Step} {v v' : Value}

/-- An element is changed such that dropping leaves the same of it as before. -/
theorem pruneElements_set {i j : Nat} {vs : List Value} {w w' : Value} (hw : vs[j]? = some w)
    (hs : pruneChild drop (.index (i + j)) w = pruneChild drop' (.index (i + j)) w')
    (hothers : ∀ k, k ≠ i + j → AgreeAt drop drop' (.index k)) :
    pruneElements drop i vs = pruneElements drop' i (vs.set j w') := by
  induction vs generalizing i j with
  | nil => cases hw
  | cons v vs ih =>
    cases j with
    | zero =>
      obtain rfl : v = w := Option.some.inj hw
      rw [Nat.add_zero] at hs
      rw [List.set_cons_zero, pruneElements_cons, pruneElements_cons, hs]
      rw [pruneElements_congr fun k hk => hothers k (by omega)]
    | succ j =>
      have he : i + 1 + j = i + (j + 1) := by omega
      have hrest : pruneElements drop (i + 1) vs = pruneElements drop' (i + 1) (vs.set j w') := by
        apply ih hw
        · rw [he]
          exact hs
        · intro k hk
          apply hothers
          omega
      rw [List.set_cons_succ, pruneElements_cons, pruneElements_cons, hrest]
      rw [(hothers i (by omega)).pruneChild_eq]

theorem pruneMembers_change {u : String} {ms ms' : Members Value} (h : changeMember? f u ms = some ms')
    (hn : (Members.names ms).Nodup)
    (hs : ∀ w w', Members.find? u ms = some w → f w = some w' →
      pruneChild drop (.name u) w = pruneChild drop' (.name u) w')
    (hothers : ∀ other, other ≠ u → AgreeAt drop drop' (.name other)) :
    pruneMembers drop ms = pruneMembers drop' ms' := by
  induction ms generalizing ms' with
  | nil => cases h
  | cons m ms ih =>
    obtain ⟨name, v⟩ := m
    obtain ⟨hname, hrest⟩ := List.nodup_cons.1 hn
    rw [changeMember?] at h
    by_cases hu : name = u
    · subst hu
      rw [if_pos rfl] at h
      obtain ⟨w, hw, rfl⟩ := Option.map_eq_some_iff.1 h
      have hfind : Members.find? name ((name, v) :: ms) = some v := by rw [Members.find?_cons, if_pos rfl]
      have hms : pruneMembers drop ms = pruneMembers drop' ms := by
        apply pruneMembers_congr
        intro other ho
        apply hothers
        intro he
        subst he
        exact hname ho
      rw [pruneMembers_cons, pruneMembers_cons, hs v w hfind hw, hms]
    · rw [if_neg hu] at h
      obtain ⟨ns, hns, rfl⟩ := Option.map_eq_some_iff.1 h
      have hms : pruneMembers drop ms = pruneMembers drop' ns := by
        apply ih hns hrest
        intro w w' hw hf
        refine hs w w' ?_ hf
        rw [Members.find?_cons, if_neg hu, hw]
      rw [pruneMembers_cons, pruneMembers_cons, hms, (hothers name hu).pruneChild_eq]

/-- A child is changed such that dropping leaves the same of it as before. -/
theorem prune_change (h : s.change? f v = some v') (hd : v.Distinct)
    (hs : ∀ w w', s.child? v = some w → f w = some w' → pruneChild drop s w = pruneChild drop' s w')
    (hothers : ∀ t, t ≠ s → AgreeAt drop drop' t) : prune drop v = prune drop' v' := by
  cases s with
  | index i =>
    cases v with
    | array vs =>
      obtain ⟨ws, hws, rfl⟩ := Option.map_eq_some_iff.1 h
      obtain ⟨w, w', hw, hf, rfl⟩ := changeElement?_eq hws
      rw [prune, prune]
      rw [pruneElements_set hw]
      · rw [Nat.zero_add]
        exact hs w w' hw hf
      · intro k hk
        apply hothers
        simpa using hk
    | _ => cases h
  | name u =>
    cases v with
    | object ms =>
      obtain ⟨ns, hns, rfl⟩ := Option.map_eq_some_iff.1 h
      rw [prune, prune, pruneMembers_change hns hd.names hs]
      intro other ho
      apply hothers
      simpa using ho
    | _ => cases h

/-- An element is erased, and nothing behind it is dropped. -/
theorem pruneElements_eraseIdx {i j : Nat} {vs : List Value} (hj : j < vs.length)
    (hbefore : ∀ k, k < i + j → AgreeAt drop drop' (.index k)) (hs : drop [.index (i + j)] = true)
    (hbehind : ∀ k, i + j < k → ∀ l, drop (.index k :: l) = false)
    (hbehind' : ∀ k, i + j ≤ k → ∀ l, drop' (.index k :: l) = false) :
    pruneElements drop i vs = pruneElements drop' i (vs.eraseIdx j) := by
  induction vs generalizing i j with
  | nil => simp at hj
  | cons v vs ih =>
    cases j with
    | zero =>
      have hvs : pruneElements drop (i + 1) vs = vs := pruneElements_eq_self _ _ fun k hk => hbehind k (by omega)
      have hvs' : pruneElements drop' i vs = vs := pruneElements_eq_self _ _ fun k hk => hbehind' k (by omega)
      rw [Nat.add_zero] at hs
      rw [List.eraseIdx_cons_zero, pruneElements, if_pos hs, hvs, hvs']
    | succ j =>
      have he : i + 1 + j = i + (j + 1) := by omega
      have hrest : pruneElements drop (i + 1) vs = pruneElements drop' (i + 1) (vs.eraseIdx j) := by
        rw [← he] at hs
        apply ih (by simpa using hj) _ hs
        · intro k hk
          apply hbehind
          omega
        · intro k hk
          apply hbehind'
          omega
        · intro k hk
          apply hbefore
          omega
      rw [List.eraseIdx_cons_succ, pruneElements_cons, pruneElements_cons, hrest]
      rw [(hbefore i (by omega)).pruneChild_eq]

theorem pruneMembers_erase {u : String} {ms : Members Value} (hn : (Members.names ms).Nodup)
    (hs : drop [.name u] = true) (hothers : ∀ other, other ≠ u → AgreeAt drop drop' (.name other)) :
    pruneMembers drop ms = pruneMembers drop' (Members.erase u ms) := by
  induction ms with
  | nil => simp [Members.erase, pruneMembers]
  | cons m ms ih =>
    obtain ⟨name, v⟩ := m
    obtain ⟨hname, hrest⟩ := List.nodup_cons.1 hn
    rw [Members.erase]
    by_cases hu : name = u
    · subst hu
      rw [if_pos rfl, pruneMembers, if_pos hs]
      apply pruneMembers_congr
      intro other ho
      apply hothers
      intro he
      subst he
      exact hname ho
    · rw [if_neg hu, pruneMembers_cons, pruneMembers_cons, ih hrest, (hothers name hu).pruneChild_eq]

end Child

section Remove

variable {l : Location} {s : Step} {v v' : Value}

theorem prune_eraseChild? (h : eraseChild? v s = some v') (hd : v.Distinct)
    (hbefore : ∀ l, drop l = true → Before l [s]) :
    prune (fun l => drop l || decide (l = [s])) v = prune drop v' := by
  have hself : (fun l => drop l || decide (l = [s])) [s] = true := by simp
  have hat : ∀ t, t ≠ s → AgreeAt (fun l => drop l || decide (l = [s])) drop t := by
    intro t ht l
    simp [ht]
  have hbehind : ∀ t l, ¬t.order s = .lt → drop (t :: l) = false := by
    intro t l ht
    rw [Bool.eq_false_iff]
    intro hl
    rcases before_cons_cons.1 (hbefore _ hl) with h | ⟨-, h⟩
    · exact ht h
    · exact not_before_root l h
  cases s with
  | index i =>
    cases v with
    | array vs =>
      simp only [eraseChild?, Value.eraseElement?] at h
      split at h
      · rename_i hi
        cases h
        rw [prune, prune, array.injEq]
        apply pruneElements_eraseIdx hi
        · intro k hk
          apply hat
          intro he
          cases he
          omega
        · rw [Nat.zero_add]
          exact hself
        · intro k hk l
          have hki : k ≠ i := by omega
          have hle : ¬k < i := by omega
          have hl := hbehind (.index k) l (by rw [Step.order, Nat.compare_eq_lt]; exact hle)
          simp [hl, hki]
        · intro k hk l
          have hle : ¬k < i := by omega
          exact hbehind (.index k) l (by rw [Step.order, Nat.compare_eq_lt]; exact hle)
      · cases h
    | _ => cases h
  | name u =>
    cases v with
    | object ms =>
      simp only [eraseChild?, Value.eraseMember?] at h
      split at h
      · cases h
        rw [prune, prune, object.injEq]
        apply pruneMembers_erase hd.names
        · exact hself
        · intro other ho
          apply hat
          simpa using ho
      · cases h
    | _ => cases h

/-- Removing a node first and dropping what comes before it afterwards drops all of them. -/
theorem prune_remove? (h : remove? l v = some v') (hd : v.Distinct) (hbefore : ∀ m, drop m = true → Before m l) :
    prune (fun m => drop m || decide (m = l)) v = prune drop v' := by
  induction l generalizing drop v v' with
  | nil => cases h
  | cons s l ih =>
    by_cases hr : l = root
    · subst hr
      exact prune_eraseChild? h hd hbefore
    · rw [remove?_cons hr] at h
      apply prune_change h hd
      · intro w w' hw hf
        have hbelow : ∀ m, drop (s :: m) = true → Before m l := fun m hm => before_cons_self.1 (hbefore _ hm)
        have hchild := ih hf (hd.edge (Step.mem_edges_of_child? hw)) hbelow
        have hroot : ¬[] = l := Ne.symm hr
        simp only [pruneChild, List.cons.injEq, true_and, hchild, hroot, decide_false, Bool.or_false]
      · intro t ht m
        simp [ht]

end Remove

/-- A location is one of some locations or below one of them, where the root does not count. -/
def isUnder (ls : List Location) (l : Location) : Bool := ls.any fun k => decide (k ≠ root) && k.isPrefixOf l

theorem covers_isUnder (ls : List Location) : Covers (fun l => decide (l ∈ ls)) (isUnder ls) := by
  intro l _
  simp only [isUnder, List.any_eq_true, Bool.and_eq_true, decide_eq_true_eq, List.isPrefixOf_iff_prefix]
  constructor
  · intro hk
    obtain ⟨k, hk, hr, m, hm⟩ := hk
    exact ⟨k, m, hr, hm, hk⟩
  · intro hk
    obtain ⟨k, m, hr, hm, hk⟩ := hk
    exact ⟨k, hk, hr, m, hm⟩

end Value

end PathQuery
