import PathQuery.Flat
import PathQuery.Proofs.Except
import PathQuery.Proofs.Json.Edges

namespace PathQuery.Value

variable {key : String} {new v v' w : Value} {s : Step} {l m : Location}

/-- What grows out of a value when others are written at it and below it. -/
inductive Grown : Value → Value → Prop
  | refl (v : Value) : Grown v v
  | place {v w w' : Value} {key : String} {new : Value} {l : Location} :
    Grown v w → place key new l w = .ok w' → Grown v w'

theorem getElem?_take_cons_drop {vs : List Value} {i : Nat} (hi : i ≤ vs.length) (w : Value) (j : Nat) :
    (vs.take i ++ w :: vs.drop (i + 1))[j]? = if j = i then some w else vs[j]? := by
  have hlen : (vs.take i).length = i := List.length_take_of_le hi
  rcases Nat.lt_trichotomy j i with hj | rfl | hj
  · rw [List.getElem?_append_left (by omega), List.getElem?_take_of_lt hj, if_neg (by omega)]
  · rw [List.getElem?_append_right (by omega), hlen, Nat.sub_self, if_pos rfl]
    rfl
  · obtain ⟨d, rfl⟩ : ∃ d, j = i + d + 1 := ⟨j - i - 1, by omega⟩
    rw [List.getElem?_append_right (by omega), hlen, if_neg (by omega)]
    have hd : i + d + 1 - i = d + 1 := by omega
    have hk : i + 1 + d = i + d + 1 := by omega
    rw [hd, List.getElem?_cons_succ, List.getElem?_drop, hk]

/-- A write below a step happens in the child of this step, which is made if it is missing. -/
theorem place_cons (h : place key new (s :: l) v = .ok v') :
    ∃ w, place key new l ((s.child? v).getD null) = .ok w ∧ s.child? v' = some w ∧
      ∀ t, t ≠ s → t.child? v' = t.child? v := by
  cases s with
  | name name =>
    cases v with
    | null =>
      obtain ⟨w, hw, rfl⟩ := map_eq_ok h
      refine ⟨w, hw, Members.find?_insert_self name w [], ?_⟩
      intro t ht
      cases t with
      | index i => rfl
      | name other => exact Members.find?_insert_of_ne (fun he => ht (congrArg Step.name he)) w []
    | object ms =>
      obtain ⟨w, hw, rfl⟩ := map_eq_ok h
      refine ⟨w, hw, Members.find?_insert_self name w ms, ?_⟩
      intro t ht
      cases t with
      | index i => rfl
      | name other => exact Members.find?_insert_of_ne (fun he => ht (congrArg Step.name he)) w ms
    | _ => cases h
  | index i =>
    -- `null` gets elements as an array without any does
    have harray : ∀ vs : List Value, i ≤ vs.length →
        (place key new l (vs[i]?.getD null)).map (fun w => array (vs.take i ++ w :: vs.drop (i + 1))) = .ok v' →
        ∃ w, place key new l (vs[i]?.getD null) = .ok w ∧ Step.child? v' (.index i) = some w ∧
          ∀ t : Step, t ≠ .index i → t.child? v' = t.child? (array vs) := by
      intro vs hi h
      obtain ⟨w, hw, rfl⟩ := map_eq_ok h
      refine ⟨w, hw, ?_, ?_⟩
      · exact (getElem?_take_cons_drop hi w i).trans (if_pos rfl)
      · intro t ht
        cases t with
        | index j =>
          have hj : j ≠ i := fun he => ht (congrArg Step.index he)
          exact (getElem?_take_cons_drop hi w j).trans (if_neg hj)
        | name other => rfl
    cases v with
    | null =>
      rw [place] at h
      split at h
      · cases h
      · obtain rfl : i = 0 := by omega
        obtain ⟨w, hw, hself, hothers⟩ := harray [] (Nat.le_refl 0) h
        refine ⟨w, hw, hself, ?_⟩
        intro t ht
        rw [hothers t ht]
        cases t <;> rfl
    | array vs =>
      rw [place] at h
      split at h
      · cases h
      · exact harray vs (by omega) h
    | _ => cases h

theorem place_nil (h : place key new [] v = .ok v') : v = null ∧ v' = new := by
  cases v with
  | null =>
    cases h
    exact ⟨rfl, rfl⟩
  | _ => cases h

theorem get?_place (h : place key new l v = .ok v') : l.get? v' = some new := by
  induction l generalizing v v' with
  | nil =>
    obtain ⟨-, rfl⟩ := place_nil h
    rfl
  | cons s l ih =>
    obtain ⟨w, hw, hself, -⟩ := place_cons h
    rw [Location.get?, hself]
    exact ih hw

/-- A write at or below a place happens in the value of this place. -/
theorem get?_place_append (h : place key new (l ++ m) v = .ok v') (hl : l.get? v = some w) :
    ∃ w', place key new m w = .ok w' ∧ l.get? v' = some w' := by
  induction l generalizing v v' with
  | nil =>
    cases hl
    exact ⟨v', h, rfl⟩
  | cons s l ih =>
    obtain ⟨u, hu, hl⟩ := Option.bind_eq_some_iff.1 hl
    obtain ⟨u', hu', hself, -⟩ := place_cons h
    rw [hu] at hu'
    obtain ⟨w', hw', hl'⟩ := ih hu' hl
    refine ⟨w', hw', ?_⟩
    rw [Location.get?, hself]
    exact hl'

/-- A write that is neither at nor below a place leaves its value as it is. -/
theorem get?_place_elsewhere (h : place key new m v = .ok v') (hl : l.get? v = some w) (hn : ¬l <+: m) :
    l.get? v' = some w := by
  induction m generalizing l v v' with
  | nil =>
    -- what is written at a place above would stand in the place of a container
    obtain ⟨rfl, -⟩ := place_nil h
    cases l with
    | nil => exact absurd (List.nil_prefix) hn
    | cons s l => cases s <;> cases hl
  | cons t m ih =>
    cases l with
    | nil => exact absurd (List.nil_prefix) hn
    | cons s l =>
      obtain ⟨u, hu, hl⟩ := Option.bind_eq_some_iff.1 hl
      obtain ⟨u', hu', hself, hothers⟩ := place_cons h
      by_cases hst : s = t
      · subst hst
        rw [hu] at hu'
        rw [Location.get?, hself]
        exact ih hu' hl fun hp => hn ((List.prefix_cons_inj s).2 hp)
      · rw [Location.get?, hothers s hst, hu]
        exact hl

/-- A write that fails at a place fails in the whole document. -/
theorem place_append_error {e : FlatError} (hl : l.get? v = some w) (h : place key new m w = .error e) :
    place key new (l ++ m) v = .error e := by
  induction l generalizing v with
  | nil =>
    cases hl
    exact h
  | cons s l ih =>
    obtain ⟨u, hu, hbelow⟩ := Option.bind_eq_some_iff.1 hl
    have he := ih hbelow
    cases s with
    | name name =>
      cases v with
      | object ms =>
        have hu : Members.find? name ms = some u := hu
        rw [List.cons_append, place, hu, Option.getD_some, he]
        rfl
      | _ => cases hu
    | index i =>
      cases v with
      | array vs =>
        have hu : vs[i]? = some u := hu
        obtain ⟨hi, -⟩ := List.getElem?_eq_some_iff.1 hu
        rw [List.cons_append, place, if_neg (by omega), hu, Option.getD_some, he]
        rfl
      | _ => cases hu

mutual

/-- How much has been written at and below a value. -/
def weight : Value → Nat
  | null => 0
  | array vs => elementsWeight vs + 1
  | object ms => membersWeight ms + 1
  | _ => 1

def elementsWeight : List Value → Nat
  | [] => 0
  | v :: vs => weight v + 1 + elementsWeight vs

def membersWeight : List (String × Value) → Nat
  | [] => 0
  | (_, v) :: ms => weight v + 1 + membersWeight ms

end

theorem elementsWeight_take_cons_drop {vs : List Value} {i : Nat} (hi : i ≤ vs.length) (w : Value) :
    elementsWeight (vs.take i ++ w :: vs.drop (i + 1)) + weight (vs[i]?.getD null) + (if vs[i]?.isSome then 1 else 0) =
      elementsWeight vs + weight w + 1 := by
  induction vs generalizing i with
  | nil =>
    obtain rfl : i = 0 := by simpa using hi
    simp [elementsWeight, weight]
  | cons u vs ih =>
    cases i with
    | zero =>
      simp [elementsWeight]
      omega
    | succ i =>
      have hrest := ih (i := i) (by simpa using hi)
      simp only [List.take_succ_cons, List.drop_succ_cons, List.cons_append, elementsWeight,
        List.getElem?_cons_succ] at hrest ⊢
      omega

theorem membersWeight_insert (name : String) (w : Value) (ms : List (String × Value)) :
    membersWeight (Members.insert name w ms) + weight ((Members.find? name ms).getD null) +
      (if (Members.find? name ms).isSome then 1 else 0) = membersWeight ms + weight w + 1 := by
  induction ms with
  | nil => simp [Members.insert, membersWeight, weight]
  | cons m ms ih =>
    obtain ⟨n, u⟩ := m
    by_cases hn : n = name
    · simp [Members.insert, Members.find?_cons, hn, membersWeight]
      omega
    · simp only [Members.insert, Members.find?_cons, if_neg hn, membersWeight] at ih ⊢
      omega

theorem weight_pos (hv : v.isNull = false) : 0 < weight v := by
  cases v with
  | null => cases hv
  | _ => simp [weight]

/-- A write adds something unless it writes `null` where `null` has been written. -/
theorem weight_place (h : place key new l v = .ok v') :
    weight v ≤ weight v' ∧ (weight v' = weight v → l.get? v = some null ∧ new = null) := by
  induction l generalizing v v' with
  | nil =>
    obtain ⟨rfl, rfl⟩ := place_nil h
    refine ⟨Nat.zero_le _, ?_⟩
    intro he
    refine ⟨rfl, ?_⟩
    cases v' with
    | null => rfl
    | _ => simp [weight] at he
  | cons s l ih =>
    -- the place below the step gains what the whole value gains, and the place itself if it is new
    have hbelow : ∀ {c : Option Value} {w : Value} {before after : Nat}, place key new l (c.getD null) = .ok w →
        after + weight (c.getD null) + (if c.isSome then 1 else 0) = before + weight w + 1 →
        before ≤ after ∧ (after = before → c.bind (Location.get? l) = some null ∧ new = null) := by
      intro c w before after hw hsum
      obtain ⟨hle, heq⟩ := ih hw
      cases c with
      | none =>
        simp only [Option.getD_none, Option.isSome_none, Bool.false_eq_true, if_false] at hsum hle
        constructor
        · omega
        · intro he
          omega
      | some u =>
        simp only [Option.getD_some, Option.isSome_some, if_true] at hsum hle heq
        refine ⟨by omega, fun he => ?_⟩
        exact heq (by omega)
    cases s with
    | name name =>
      cases v with
      | null =>
        obtain ⟨w, hw, rfl⟩ := map_eq_ok h
        simp [weight, membersWeight]
      | object ms =>
        obtain ⟨w, hw, rfl⟩ := map_eq_ok h
        obtain ⟨hle, heq⟩ := hbelow hw (membersWeight_insert name w ms)
        simp only [weight]
        exact ⟨by omega, fun he => heq (by omega)⟩
      | _ => cases h
    | index i =>
      cases v with
      | null =>
        rw [place] at h
        split at h
        · cases h
        · obtain ⟨w, hw, rfl⟩ := map_eq_ok h
          simp [weight, elementsWeight]
      | array vs =>
        rw [place] at h
        split at h
        · cases h
        · next hi =>
          obtain ⟨w, hw, rfl⟩ := map_eq_ok h
          obtain ⟨hle, heq⟩ := hbelow hw (elementsWeight_take_cons_drop (by omega) w)
          simp only [weight]
          exact ⟨by omega, fun he => heq (by omega)⟩
      | _ => cases h

theorem insert_find? {name : String} {ms : Members Value} (h : Members.find? name ms = some w) :
    Members.insert name w ms = ms := by
  induction ms with
  | nil => cases h
  | cons m ms ih =>
    obtain ⟨n, u⟩ := m
    rw [Members.find?_cons] at h
    by_cases hn : n = name
    · rw [if_pos hn] at h
      cases h
      simp [Members.insert, hn]
    · rw [if_neg hn] at h
      simp [Members.insert, hn, ih h]

/-- A `null` that is written where `null` has been written changes nothing. -/
theorem place_null (h : place key null l v = .ok v') (hl : l.get? v = some null) : v' = v := by
  induction l generalizing v v' with
  | nil =>
    obtain ⟨rfl, rfl⟩ := place_nil h
    rfl
  | cons s l ih =>
    obtain ⟨u, hu, hbelow⟩ := Option.bind_eq_some_iff.1 hl
    cases s with
    | name name =>
      cases v with
      | object ms =>
        have hu : Members.find? name ms = some u := hu
        obtain ⟨w, hw, rfl⟩ := map_eq_ok h
        rw [hu, Option.getD_some] at hw
        obtain rfl := ih hw hbelow
        rw [insert_find? hu]
      | _ => cases hu
    | index i =>
      cases v with
      | array vs =>
        have hu : vs[i]? = some u := hu
        obtain ⟨hi, rfl⟩ := List.getElem?_eq_some_iff.1 hu
        rw [place, if_neg (by omega)] at h
        obtain ⟨w, hw, rfl⟩ := map_eq_ok h
        rw [hu, Option.getD_some] at hw
        obtain rfl := ih hw hbelow
        rw [← List.drop_eq_getElem_cons hi, List.take_append_drop]
      | _ => cases hu

theorem Grown.weight_le (h : Grown v w) : weight v ≤ weight w := by
  induction h with
  | refl => exact Nat.le_refl _
  | place _ hp ih => exact Nat.le_trans ih (weight_place hp).1

theorem Grown.trans {u : Value} (h : Grown u v) (h' : Grown v w) : Grown u w := by
  induction h' with
  | refl => exact h
  | place _ hp ih => exact .place ih hp

/-- Nothing can be written below a scalar, or in its place. -/
theorem place_isScalar (hs : v.isScalar = true) (hn : v.isNull = false) :
    place key new l v = .error (.conflict key) := by
  cases v with
  | null => cases hn
  | array vs => cases hs
  | object ms => cases hs
  | _ =>
    cases l with
    | nil => rfl
    | cons s l => cases s <;> rfl

theorem Grown.eq_of_isScalar (h : Grown v w) (hs : v.isScalar = true) (hn : v.isNull = false) : w = v := by
  induction h with
  | refl => rfl
  | place _ hp ih =>
    obtain rfl := ih
    rw [place_isScalar hs hn] at hp
    cases hp

theorem Grown.isNull_eq_false (h : Grown v w) (hn : v.isNull = false) : w.isNull = false := by
  have hv := weight_pos hn
  have hw := h.weight_le
  cases w with
  | null =>
    simp only [weight] at hw
    omega
  | _ => rfl

theorem placeMember_ok {doc doc' : Value} {m : String × Value} (h : placeMember doc m = .ok doc') :
    ∃ l, Location.ofText m.1 = .ok l ∧ place m.1 m.2 l doc = .ok doc' := by
  unfold placeMember at h
  split at h
  · cases h
  · next l hl => exact ⟨l, hl, h⟩

/-- Of the members that are written after a value has its place, those at and below this place make it grow. It stays
as it is just if all they do is to write `null` where it holds `null`. -/
theorem get?_foldlM_placeMember {doc doc' : Value} {ms : Members Value} (h : ms.foldlM placeMember doc = .ok doc')
    (hl : l.get? doc = some v) :
    ∃ w, l.get? doc' = some w ∧ Grown v w ∧
      (w = v ↔ ∀ n ∈ ms, ∀ m, Location.ofText n.1 = .ok (l ++ m) → m.get? v = some null ∧ n.2 = null) := by
  induction ms generalizing doc v with
  | nil =>
    cases h
    exact ⟨v, hl, .refl v, by simp⟩
  | cons n ms ih =>
    rw [List.foldlM_cons] at h
    obtain ⟨mid, hmid, hrest⟩ := bind_eq_ok h
    obtain ⟨target, htarget, hplace⟩ := placeMember_ok hmid
    by_cases hp : l <+: target
    · obtain ⟨m, rfl⟩ := hp
      obtain ⟨u, hu, hlu⟩ := get?_place_append hplace hl
      obtain ⟨w, hw, hgrown, hiff⟩ := ih hrest hlu
      refine ⟨w, hw, (Grown.place (.refl v) hu).trans hgrown, ?_⟩
      by_cases hnull : Location.get? m v = some null ∧ n.2 = null
      · have hsame : u = v := by
          rw [hnull.2] at hu
          exact place_null hu hnull.1
        subst hsame
        rw [hiff, List.forall_mem_cons]
        refine (and_iff_right ?_).symm
        intro k hk
        obtain rfl : m = k := by simpa using Except.ok.inj (htarget.symm.trans hk)
        exact hnull
      · -- the value has grown, and it never shrinks again
        have hlt : weight v < weight w := by
          obtain ⟨hle, heq⟩ := weight_place hu
          have hne : weight u ≠ weight v := fun he => hnull (heq he)
          have hgw := hgrown.weight_le
          omega
        constructor
        · intro he
          rw [he] at hlt
          exact absurd hlt (Nat.lt_irrefl _)
        · intro hall
          exact absurd (hall n (by simp) m htarget) hnull
    · obtain ⟨w, hw, hgrown, hiff⟩ := ih hrest (get?_place_elsewhere hplace hl hp)
      refine ⟨w, hw, hgrown, ?_⟩
      rw [hiff, List.forall_mem_cons]
      refine (and_iff_right ?_).symm
      intro k hk
      obtain rfl : target = l ++ k := Except.ok.inj (htarget.symm.trans hk)
      exact absurd (List.prefix_append l k) hp

/-- Writing the members before another member and then this one. -/
theorem foldlM_placeMember_split {doc doc' : Value} {before after : Members Value} {n : String × Value}
    (h : (before ++ n :: after).foldlM placeMember doc = .ok doc') :
    ∃ mid l, Location.ofText n.1 = .ok l ∧ l.get? mid = some n.2 ∧ after.foldlM placeMember mid = .ok doc' := by
  rw [List.foldlM_append] at h
  obtain ⟨start, -, h⟩ := bind_eq_ok h
  rw [List.foldlM_cons] at h
  obtain ⟨mid, hmid, hafter⟩ := bind_eq_ok h
  obtain ⟨l, hl, hplace⟩ := placeMember_ok hmid
  exact ⟨mid, l, hl, get?_place hplace, hafter⟩

/-- A document that has been rebuilt holds something at the place of every member. This is what the member says just
if all that later members do at and below this place is to write `null` where the member has `null`; so it is if the
member is a scalar other than `null`. A later member at the place of a value other than `null`, or below such a
scalar, is a conflict. -/
theorem unflatten_keeps_iff (ms : Members Value) :
    (∀ doc, unflatten (object ms) = .ok doc → ∀ before key v after, ms = before ++ (key, v) :: after →
      ∃ l w, Location.ofText key = .ok l ∧ l.get? doc = some w ∧
        (w = v ↔ ∀ n ∈ after, ∀ m, Location.ofText n.1 = .ok (l ++ m) → m.get? v = some null ∧ n.2 = null) ∧
        (v.isScalar = true → v.isNull = false → w = v)) ∧
    ∀ before key v between later new after l m, ms = before ++ (key, v) :: between ++ (later, new) :: after →
      Location.ofText key = .ok l → Location.ofText later = .ok (l ++ m) → v.isNull = false →
      (m = [] ∨ v.isScalar = true) → (∃ doc, unflatten (object (before ++ (key, v) :: between)) = .ok doc) →
      unflatten (object ms) = .error (.conflict later) := by
  constructor
  · intro doc h before key v after hms
    subst hms
    obtain ⟨mid, l, hl, hmid, hafter⟩ := foldlM_placeMember_split h
    obtain ⟨w, hw, hgrown, hiff⟩ := get?_foldlM_placeMember hafter hmid
    exact ⟨l, w, hl, hw, hiff, hgrown.eq_of_isScalar⟩
  · intro before key v between later new after l m hms hl hlater hn hm hdoc
    subst hms
    obtain ⟨doc, hdoc⟩ := hdoc
    have hdoc : (before ++ (key, v) :: between).foldlM placeMember null = .ok doc := hdoc
    obtain ⟨mid, k, hk, hmid, hbetween⟩ := foldlM_placeMember_split hdoc
    obtain rfl : l = k := Except.ok.inj (hl.symm.trans hk)
    obtain ⟨w, hw, hgrown, -⟩ := get?_foldlM_placeMember hbetween hmid
    have hwn := hgrown.isNull_eq_false hn
    have hplace : place later new m w = .error (.conflict later) := by
      rcases hm with rfl | hs
      · cases w with
        | null => cases hwn
        | _ => rfl
      · obtain rfl := hgrown.eq_of_isScalar hs hn
        exact place_isScalar hs hn
    have hmember : placeMember doc (later, new) = .error (.conflict later) := by
      simp only [placeMember, hlater]
      exact place_append_error hw hplace
    show List.foldlM placeMember null (before ++ (key, v) :: between ++ (later, new) :: after) = _
    rw [List.foldlM_append, hdoc]
    show (placeMember doc (later, new)).bind _ = _
    rw [hmember]
    rfl

/-- An element that is written twice as `null` stays as it is, and nothing can be written below a number. -/
theorem unflatten_keeps_null :
    (∃ l w, Location.ofText "$.a[0]" = .ok l ∧ l.get? (object [("a", array [null])]) = some w ∧
      (w = null ↔ ∀ n ∈ [("$['a'][0]", null)], ∀ m, Location.ofText n.1 = .ok (l ++ m) →
        m.get? null = some null ∧ n.2 = null)) ∧
    unflatten (object [("$.a", ofInt 1), ("$.b", null), ("$['a'].c", null)]) = .error (.conflict "$['a'].c") := by
  constructor
  · obtain ⟨l, w, hl, hw, hiff, -⟩ := (unflatten_keeps_iff [("$.a[0]", null), ("$['a'][0]", null)]).1
      (object [("a", array [null])]) rfl [] "$.a[0]" null [("$['a'][0]", null)] rfl
    exact ⟨l, w, hl, hw, hiff⟩
  · exact (unflatten_keeps_iff _).2 [] "$.a" (ofInt 1) [("$.b", null)] "$['a'].c" null [] [.name "a"] [.name "c"]
      rfl rfl rfl rfl (.inr rfl) ⟨object [("a", ofInt 1), ("b", null)], rfl⟩

/-- A `null` and an empty array are lost when members are written below them. -/
theorem unflatten_loses_null :
    unflatten (object [("$.a", null), ("$.a.b", ofInt 1)]) = .ok (object [("a", object [("b", ofInt 1)])]) ∧
    unflatten (object [("$.a", array []), ("$.a[0]", ofInt 1)]) = .ok (object [("a", array [ofInt 1])]) ∧
    ¬∀ ms doc, unflatten (object ms) = .ok doc → ∀ key v, (key, v) ∈ ms →
      ∃ l, Location.ofText key = .ok l ∧ l.get? doc = some v := by
  refine ⟨rfl, rfl, ?_⟩
  intro hall
  obtain ⟨l, hl, hv⟩ := hall [("$.a", null), ("$.a.b", ofInt 1)] (object [("a", object [("b", ofInt 1)])]) rfl
    "$.a" null (by simp)
  obtain rfl : [.name "a"] = l := Except.ok.inj hl
  cases hv

end PathQuery.Value
