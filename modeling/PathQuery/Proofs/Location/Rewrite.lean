import PathQuery.Proofs.Location.Edit

namespace PathQuery

open Location

namespace Value

/-- A function on the nodes of a document, as a function on the nodes below a step. -/
def inside (s : Step) (f : Location → Value → Value) : Location → Value → Value := fun l => f (s :: l)

mutual

/-- Rewrites all that is below a value, whose nodes have their locations counted from the value. -/
def rebuild (f : Location → Value → Value) : Value → Value
  | array vs => array (rebuildElements f 0 vs)
  | object ms => object (rebuildMembers f ms)
  | null => null
  | bool b => bool b
  | number n => number n
  | string s => string s

/-- Rewrites elements, the first of which has index `i`. -/
def rebuildElements (f : Location → Value → Value) (i : Nat) : List Value → List Value
  | [] => []
  | v :: vs => f [.index i] (rebuild (inside (.index i) f) v) :: rebuildElements f (i + 1) vs

def rebuildMembers (f : Location → Value → Value) : List (String × Value) → List (String × Value)
  | [] => []
  | (name, v) :: ms => (name, f [.name name] (rebuild (inside (.name name) f) v)) :: rebuildMembers f ms

end

/-- Rewrites the nodes below a value, then the value that is made of them. -/
def rewrite (f : Location → Value → Value) (v : Value) : Value := f root (rebuild f v)

variable {f f' : Location → Value → Value}

theorem rebuildElements_cons (f : Location → Value → Value) (i : Nat) (v : Value) (vs : List Value) :
    rebuildElements f i (v :: vs) = rewrite (inside (.index i) f) v :: rebuildElements f (i + 1) vs := by
  rw [rebuildElements, rewrite]
  rfl

theorem rebuildMembers_cons (f : Location → Value → Value) (name : String) (v : Value) (ms : List (String × Value)) :
    rebuildMembers f ((name, v) :: ms) = (name, rewrite (inside (.name name) f) v) :: rebuildMembers f ms := by
  rw [rebuildMembers, rewrite]
  rfl

theorem rebuildElements_getElem? (f : Location → Value → Value) (i j : Nat) (vs : List Value) :
    (rebuildElements f i vs)[j]? = vs[j]?.map (rewrite (inside (.index (i + j)) f)) := by
  induction vs generalizing i j with
  | nil => simp [rebuildElements]
  | cons v vs ih =>
    rw [rebuildElements_cons]
    cases j with
    | zero => simp
    | succ j =>
      have he : i + 1 + j = i + (j + 1) := by omega
      rw [List.getElem?_cons_succ, List.getElem?_cons_succ, ih, he]

theorem rebuildMembers_find? (f : Location → Value → Value) (name : String) (ms : Members Value) :
    Members.find? name (rebuildMembers f ms) = (Members.find? name ms).map (rewrite (inside (.name name) f)) := by
  induction ms with
  | nil => simp [rebuildMembers]
  | cons m ms ih =>
    obtain ⟨n, v⟩ := m
    rw [rebuildMembers_cons, Members.find?_cons, Members.find?_cons]
    by_cases hn : n = name
    · subst hn
      rw [if_pos rfl, if_pos rfl, Option.map_some]
    · rw [if_neg hn, if_neg hn, ih]

theorem child?_rebuild (f : Location → Value → Value) (s : Step) (v : Value) :
    s.child? (rebuild f v) = (s.child? v).map (rewrite (inside s f)) := by
  cases s with
  | index i =>
    cases v with
    | array vs =>
      have h := rebuildElements_getElem? f 0 i vs
      rw [Nat.zero_add] at h
      rw [rebuild]
      exact h
    | _ => simp [rebuild, Step.child?, element?, elements]
  | name u =>
    cases v with
    | object ms =>
      rw [rebuild]
      exact rebuildMembers_find? f u ms
    | _ => simp [rebuild, Step.child?, member?, members]

/-- A node is still there after the pass, rewritten like a document of its own, if the nodes above it are kept. -/
theorem get?_rewrite {l : Location} {v : Value} (h : ∀ k s m, k ++ s :: m = l → ∀ w, f k w = w) :
    get? l (rewrite f v) = (get? l v).map (rewrite fun m => f (l ++ m)) := by
  induction l generalizing f v with
  | nil => rfl
  | cons s l ih =>
    have hroot : rewrite f v = rebuild f v := h root s l rfl _
    rw [hroot, get?, get?, child?_rebuild, Option.bind_map]
    cases s.child? v with
    | none => rfl
    | some w =>
      have hkept : ∀ k t m, k ++ t :: m = l → ∀ w, inside s f k w = w := by
        intro k t m hk
        exact h (s :: k) t m (by rw [List.cons_append, hk])
      exact ih hkept

theorem rebuildElements_congr {i : Nat} {vs : List Value}
    (h : ∀ j, i ≤ j → inside (.index j) f = inside (.index j) f') :
    rebuildElements f i vs = rebuildElements f' i vs := by
  induction vs generalizing i with
  | nil => simp [rebuildElements]
  | cons v vs ih =>
    rw [rebuildElements_cons, rebuildElements_cons, h i (Nat.le_refl i)]
    rw [ih fun j hj => h j (by omega)]

theorem rebuildMembers_congr {ms : Members Value}
    (h : ∀ name ∈ Members.names ms, inside (.name name) f = inside (.name name) f') :
    rebuildMembers f ms = rebuildMembers f' ms := by
  induction ms with
  | nil => simp [rebuildMembers]
  | cons m ms ih =>
    obtain ⟨name, v⟩ := m
    rw [rebuildMembers_cons, rebuildMembers_cons, h name (by simp [Members.names])]
    rw [ih fun other ho => h other (List.mem_cons_of_mem _ ho)]

theorem rebuild_congr (h : ∀ s, inside s f = inside s f') (v : Value) : rebuild f v = rebuild f' v := by
  cases v with
  | array vs => rw [rebuild, rebuild, rebuildElements_congr fun j _ => h (.index j)]
  | object ms => rw [rebuild, rebuild, rebuildMembers_congr fun name _ => h (.name name)]
  | _ => simp [rebuild]

mutual

/-- Where no node below a value is changed, nothing changes. -/
theorem rebuild_eq_self : ∀ {f : Location → Value → Value} (v : Value), (∀ s l w, f (s :: l) w = w) → rebuild f v = v
  | _, .array vs, h => by rw [rebuild, rebuildElements_eq_self 0 vs fun j l => h (.index j) l]
  | _, .object ms, h => by rw [rebuild, rebuildMembers_eq_self ms fun name l => h (.name name) l]
  | _, .null, _ | _, .bool _, _ | _, .number _, _ | _, .string _, _ => by simp [rebuild]

theorem rebuildElements_eq_self : ∀ {f : Location → Value → Value} (i : Nat) (vs : List Value),
    (∀ j l w, f (.index j :: l) w = w) → rebuildElements f i vs = vs
  | _, _, [], _ => by simp [rebuildElements]
  | f, i, v :: vs, h => by
    have hv : rebuild (inside (.index i) f) v = v := rebuild_eq_self v fun s l => h i (s :: l)
    rw [rebuildElements, hv, h i, rebuildElements_eq_self (i + 1) vs h]

theorem rebuildMembers_eq_self : ∀ {f : Location → Value → Value} (ms : List (String × Value)),
    (∀ name l w, f (.name name :: l) w = w) → rebuildMembers f ms = ms
  | _, [], _ => by simp [rebuildMembers]
  | f, (name, v) :: ms, h => by
    have hv : rebuild (inside (.name name) f) v = v := rebuild_eq_self v fun s l => h name (s :: l)
    rw [rebuildMembers, hv, h name, rebuildMembers_eq_self ms h]

end

theorem rewrite_eq_self (h : ∀ l w, f l w = w) (v : Value) : rewrite f v = v := by
  rw [rewrite, h root, rebuild_eq_self v fun s l => h (s :: l)]

section Change

variable {g : Value → Option Value} {v w : Value}

/-- The two passes differ in one element only, where a change turns the result of one into that of the other. -/
theorem changeElement?_rebuild {i j : Nat} {vs : List Value} (hw : vs[j]? = some w)
    (hs : g (rewrite (inside (.index (i + j)) f) w) = some (rewrite (inside (.index (i + j)) f') w))
    (hothers : ∀ k, k ≠ i + j → inside (.index k) f = inside (.index k) f') :
    changeElement? g j (rebuildElements f i vs) = some (rebuildElements f' i vs) := by
  induction vs generalizing i j with
  | nil => cases hw
  | cons v vs ih =>
    rw [rebuildElements_cons, rebuildElements_cons]
    cases j with
    | zero =>
      obtain rfl : v = w := Option.some.inj hw
      rw [Nat.add_zero] at hs
      rw [changeElement?, hs, Option.map_some, rebuildElements_congr fun k hk => hothers k (by omega)]
    | succ j =>
      have he : i + 1 + j = i + (j + 1) := by omega
      have hrest : changeElement? g j (rebuildElements f (i + 1) vs) = some (rebuildElements f' (i + 1) vs) := by
        apply ih hw
        · rw [he]
          exact hs
        · intro k hk
          apply hothers
          omega
      rw [changeElement?, hrest, Option.map_some, hothers i (by omega)]

theorem changeMember?_rebuild {u : String} {ms : Members Value} (hn : (Members.names ms).Nodup)
    (hw : Members.find? u ms = some w)
    (hs : g (rewrite (inside (.name u) f) w) = some (rewrite (inside (.name u) f') w))
    (hothers : ∀ other, other ≠ u → inside (.name other) f = inside (.name other) f') :
    changeMember? g u (rebuildMembers f ms) = some (rebuildMembers f' ms) := by
  induction ms with
  | nil => cases hw
  | cons m ms ih =>
    obtain ⟨name, v⟩ := m
    obtain ⟨hname, hrest⟩ := List.nodup_cons.1 hn
    rw [Members.find?_cons] at hw
    rw [rebuildMembers_cons, rebuildMembers_cons, changeMember?]
    by_cases hu : name = u
    · subst hu
      rw [if_pos rfl] at hw
      obtain rfl : v = w := Option.some.inj hw
      have hms : rebuildMembers f ms = rebuildMembers f' ms := by
        apply rebuildMembers_congr
        intro other ho
        apply hothers
        intro he
        subst he
        exact hname ho
      rw [if_pos rfl, hs, Option.map_some, hms]
    · rw [if_neg hu] at hw
      rw [if_neg hu, ih hrest hw, Option.map_some, hothers name hu]

theorem change?_rebuild {s : Step} (hd : v.Distinct) (hw : s.child? v = some w)
    (hs : g (rewrite (inside s f) w) = some (rewrite (inside s f') w))
    (hothers : ∀ t, t ≠ s → inside t f = inside t f') : s.change? g (rebuild f v) = some (rebuild f' v) := by
  cases s with
  | index i =>
    cases v with
    | array vs =>
      have hvs : changeElement? g i (rebuildElements f 0 vs) = some (rebuildElements f' 0 vs) := by
        apply changeElement?_rebuild hw
        · rw [Nat.zero_add]
          exact hs
        · intro k hk
          apply hothers
          simpa using hk
      rw [rebuild, rebuild]
      exact congrArg (Option.map array) hvs
    | _ => simp [Step.child?, element?, elements] at hw
  | name u =>
    cases v with
    | object ms =>
      have hms : changeMember? g u (rebuildMembers f ms) = some (rebuildMembers f' ms) := by
        apply changeMember?_rebuild hd.names hw hs
        intro other ho
        apply hothers
        simpa using ho
      rw [rebuild, rebuild]
      exact congrArg (Option.map object) hms
    | _ => simp [Step.child?, member?, members] at hw

/-- Changing a node after the pass is the same as changing it in the pass, if the pass keeps it and the nodes above. -/
theorem change?_rewrite {l : Location} {g : Value → Value} (hd : v.Distinct) (hl : (get? l v).isSome = true)
    (hkept : ∀ k m, k ++ m = l → ∀ w, f k w = w) (hself : f' l = g) (hothers : ∀ m, m ≠ l → f' m = f m) :
    change? (fun w => some (g w)) l (rewrite f v) = some (rewrite f' v) := by
  have hroot : rewrite f v = rebuild f v := hkept root l rfl _
  rw [hroot]
  induction l generalizing f f' v with
  | nil =>
    have hinside : ∀ s, inside s f = inside s f' := fun s => funext fun m => (hothers (s :: m) (by simp)).symm
    rw [Location.change?, rewrite, rebuild_congr hinside v, root, hself]
  | cons s l ih =>
    obtain ⟨w, hw, hl⟩ := isSome_get?_cons.1 hl
    have hroot' : rewrite f' v = rebuild f' v := by
      rw [rewrite, root, hothers [] (by simp)]
      exact hkept [] (s :: l) rfl _
    have hkept' : ∀ k m, k ++ m = l → ∀ w, inside s f k w = w := by
      intro k m hk
      exact hkept (s :: k) m (by rw [List.cons_append, hk])
    rw [change?_cons, hroot']
    apply change?_rebuild hd hw
    · have hchild : rewrite (inside s f) w = rebuild (inside s f) w := hkept' [] l rfl _
      rw [hchild]
      apply ih (hd.edge (Step.mem_edges_of_child? hw)) hl hkept' hself _ hchild
      intro m hm
      exact hothers (s :: m) (by simpa using hm)
    · intro t ht
      funext m
      exact (hothers (t :: m) (by simp [ht])).symm

end Change

/-- What is seen of a value from above: its kind, how many elements it has or which names, or else all of it. -/
def outline : Value → Value
  | array vs => array (vs.map fun _ => null)
  | object ms => object (ms.map fun m => (m.1, null))
  | v => v

theorem outline_rebuild (f : Location → Value → Value) (v : Value) : (rebuild f v).outline = v.outline := by
  cases v with
  | array vs =>
    have h : ∀ i, (rebuildElements f i vs).map (fun _ => null) = vs.map fun _ => null := by
      induction vs with
      | nil => simp [rebuildElements]
      | cons v vs ih =>
        intro i
        rw [rebuildElements, List.map_cons, List.map_cons, ih]
    rw [rebuild, outline, outline, h]
  | object ms =>
    have h : (rebuildMembers f ms).map (fun m => (m.1, null)) = ms.map fun m => (m.1, null) := by
      induction ms with
      | nil => simp [rebuildMembers]
      | cons m ms ih =>
        obtain ⟨name, v⟩ := m
        rw [rebuildMembers, List.map_cons, List.map_cons, ih]
    rw [rebuild, outline, outline, h]
  | _ => rw [rebuild]

end Value

end PathQuery
