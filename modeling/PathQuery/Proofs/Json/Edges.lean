import Mathlib.Data.List.Nodup
import PathQuery.Location.Basic

namespace PathQuery

namespace Value

/-- The steps to the values directly below a value, with these values, in document order. -/
def edges : Value → List (Step × Value)
  | array vs => vs.zipIdx.map fun (v, i) => (.index i, v)
  | object ms => ms.map fun (name, v) => (.name name, v)
  | _ => []

theorem mem_edges_array {vs : List Value} {s : Step} {w : Value} :
    (s, w) ∈ edges (array vs) ↔ ∃ i, s = .index i ∧ vs[i]? = some w := by
  simp only [edges, List.mem_map, Prod.mk.injEq, Prod.exists, List.mk_mem_zipIdx_iff_getElem?]
  constructor
  · intro hex
    obtain ⟨v, i, hi, rfl, rfl⟩ := hex
    exact ⟨i, rfl, hi⟩
  · intro hex
    obtain ⟨i, rfl, hi⟩ := hex
    exact ⟨w, i, hi, rfl, rfl⟩

theorem mem_edges_object {ms : List (String × Value)} {s : Step} {w : Value} :
    (s, w) ∈ edges (object ms) ↔ ∃ name, s = .name name ∧ (name, w) ∈ ms := by
  simp only [edges, List.mem_map, Prod.mk.injEq, Prod.exists]
  constructor
  · intro hex
    obtain ⟨name, v, hm, rfl, rfl⟩ := hex
    exact ⟨name, rfl, hm⟩
  · intro hex
    obtain ⟨name, rfl, hm⟩ := hex
    exact ⟨name, w, hm, rfl, rfl⟩

theorem sizeOf_lt_of_mem_edges {v w : Value} {s : Step} (h : (s, w) ∈ v.edges) : sizeOf w < sizeOf v := by
  cases v with
  | array vs =>
    obtain ⟨i, -, hi⟩ := mem_edges_array.1 h
    have hw := List.sizeOf_lt_of_mem (List.mem_of_getElem? hi)
    simp only [array.sizeOf_spec]
    omega
  | object ms =>
    obtain ⟨name, -, hm⟩ := mem_edges_object.1 h
    have hw := List.sizeOf_lt_of_mem hm
    simp only [Prod.mk.sizeOf_spec, object.sizeOf_spec] at hw ⊢
    omega
  | _ => simp [edges] at h

/-- What passes from the values below a value to the value itself holds for every value. -/
@[elab_as_elim]
theorem edge_induction {motive : Value → Prop}
    (node : ∀ v, (∀ s w, (s, w) ∈ v.edges → motive w) → motive v) (v : Value) : motive v :=
  node v fun _ w _ => edge_induction node w
termination_by sizeOf v
decreasing_by exact sizeOf_lt_of_mem_edges ‹_›

/-- A property of a value and of all that is below it. -/
inductive Everywhere (p : Value → Prop) : Value → Prop
  | intro (v : Value) : p v → (∀ s w, (s, w) ∈ v.edges → Everywhere p w) → Everywhere p v

variable {p q : Value → Prop}

theorem everywhere_iff {v : Value} :
    Everywhere p v ↔ p v ∧ ∀ s w, (s, w) ∈ v.edges → Everywhere p w := by
  constructor
  · intro hex
    obtain ⟨_, hv, hw⟩ := hex
    exact ⟨hv, hw⟩
  · intro hex
    obtain ⟨hv, hw⟩ := hex
    exact ⟨v, hv, hw⟩

@[simp] theorem everywhere_array {vs : List Value} :
    Everywhere p (array vs) ↔ p (array vs) ∧ ∀ v ∈ vs, Everywhere p v := by
  rw [everywhere_iff]
  refine and_congr_right fun _ => ⟨?_, ?_⟩
  · intro h v hv
    obtain ⟨i, hi⟩ := List.getElem?_of_mem hv
    exact h _ v (mem_edges_array.2 ⟨i, rfl, hi⟩)
  · intro h s w hw
    obtain ⟨i, -, hi⟩ := mem_edges_array.1 hw
    exact h w (List.mem_of_getElem? hi)

@[simp] theorem everywhere_object {ms : List (String × Value)} :
    Everywhere p (object ms) ↔ p (object ms) ∧ ∀ m ∈ ms, Everywhere p m.2 := by
  rw [everywhere_iff]
  refine and_congr_right fun _ => ⟨?_, ?_⟩
  · intro h m hm
    exact h _ m.2 (mem_edges_object.2 ⟨m.1, rfl, hm⟩)
  · intro h s w hw
    obtain ⟨name, -, hm⟩ := mem_edges_object.1 hw
    exact h _ hm

/-- A value without edges has the property itself only. -/
theorem everywhere_of_edges_eq_nil {v : Value} (h : v.edges = []) : Everywhere p v ↔ p v := by
  simp [everywhere_iff (v := v), h]

@[simp] theorem everywhere_null : Everywhere p null ↔ p null := everywhere_of_edges_eq_nil rfl

@[simp] theorem everywhere_bool {b : Bool} : Everywhere p (bool b) ↔ p (bool b) := everywhere_of_edges_eq_nil rfl

@[simp] theorem everywhere_number {n : Number} : Everywhere p (number n) ↔ p (number n) :=
  everywhere_of_edges_eq_nil rfl

@[simp] theorem everywhere_string {s : String} : Everywhere p (string s) ↔ p (string s) :=
  everywhere_of_edges_eq_nil rfl

/-- The members of every object have different names. -/
def Distinct : Value → Prop := Everywhere fun v => (Members.names v.members).Nodup

/-- Every array has so few elements that their indices are 64-bit words. -/
def Sized : Value → Prop := Everywhere fun v => v.elements.length < UInt64.size

theorem Distinct.edge {v w : Value} {s : Step} (h : v.Distinct) (he : (s, w) ∈ v.edges) : w.Distinct :=
  (everywhere_iff.1 h).2 s w he

theorem Sized.edge {v w : Value} {s : Step} (h : v.Sized) (he : (s, w) ∈ v.edges) : w.Sized :=
  (everywhere_iff.1 h).2 s w he

theorem Distinct.names {ms : List (String × Value)} (h : (object ms).Distinct) : (Members.names ms).Nodup :=
  (everywhere_iff.1 h).1

theorem Sized.length {vs : List Value} (h : (array vs).Sized) : vs.length < UInt64.size := (everywhere_iff.1 h).1

/-- Different edges of a value have different steps. -/
theorem Distinct.edges_nodup {v : Value} (hd : v.Distinct) : (v.edges.map (·.1)).Nodup := by
  cases v with
  | array vs =>
    have hsteps : ((array vs).edges.map (·.1)) = (List.range' 0 vs.length).map Step.index := by
      rw [← List.zipIdx_map_snd, List.map_map, edges, List.map_map]
      rfl
    rw [hsteps]
    exact (List.nodup_range' 1).map fun i j h => by cases h; rfl
  | object ms =>
    have hsteps : ((object ms).edges.map (·.1)) = (Members.names ms).map Step.name := by
      simp [edges, Members.names, Function.comp_def]
    rw [hsteps]
    exact hd.names.map fun s t h => by cases h; rfl
  | _ => exact List.nodup_nil

end Value

namespace Members

variable {α : Type}

theorem mem_of_find? {name : String} {v : α} {ms : Members α} (h : find? name ms = some v) : (name, v) ∈ ms := by
  induction ms with
  | nil => simp at h
  | cons m rest ih =>
    obtain ⟨n, w⟩ := m
    rw [find?_cons] at h
    split at h
    · next hn =>
      cases h
      simp [hn]
    · exact List.mem_cons_of_mem _ (ih h)

theorem find?_of_mem {name : String} {v : α} {ms : Members α} (hn : (names ms).Nodup) (h : (name, v) ∈ ms) :
    find? name ms = some v := by
  induction ms with
  | nil => simp at h
  | cons m rest ih =>
    obtain ⟨n, w⟩ := m
    obtain ⟨hnot, hrest⟩ := List.nodup_cons.1 hn
    rw [find?_cons]
    rcases List.mem_cons.1 h with heq | hmem
    · cases heq
      rw [if_pos rfl]
    · have hne : n ≠ name := by
        intro he
        subst he
        exact hnot (List.mem_map.2 ⟨_, hmem, rfl⟩)
      rw [if_neg hne]
      exact ih hrest hmem

theorem find?_of_not_mem {name : String} {ms : Members α} (h : name ∉ names ms) : find? name ms = none := by
  cases hf : find? name ms with
  | none => rfl
  | some v => exact absurd (List.mem_map.2 ⟨_, mem_of_find? hf, rfl⟩) h

theorem find?_append_of_not_mem {name : String} {ms : Members α} (h : name ∉ names ms) (v : α) :
    find? name (ms ++ [(name, v)]) = some v := by
  rw [← insert_of_not_mem h, find?_insert_self]

theorem insert_append_of_not_mem {name : String} {ms : Members α} (h : name ∉ names ms) (v w : α) :
    insert name w (ms ++ [(name, v)]) = ms ++ [(name, w)] := by
  induction ms with
  | nil => simp [insert]
  | cons m ms ih =>
    obtain ⟨n, u⟩ := m
    simp only [names, List.map_cons, List.mem_cons, not_or] at h
    rw [List.cons_append, insert, if_neg (Ne.symm h.1), ih h.2, List.cons_append]

end Members

namespace Step

theorem mem_edges_of_child? {s : Step} {v w : Value} (h : s.child? v = some w) : (s, w) ∈ v.edges := by
  cases s with
  | index i =>
    cases v with
    | array vs => exact Value.mem_edges_array.2 ⟨i, rfl, h⟩
    | _ => simp [child?, Value.element?, Value.elements] at h
  | name t =>
    cases v with
    | object ms => exact Value.mem_edges_object.2 ⟨t, rfl, Members.mem_of_find? h⟩
    | _ => simp [child?, Value.member?, Value.members] at h

/-- In a document of different names every edge is taken by its step. -/
theorem child?_of_mem_edges {s : Step} {v w : Value} (hd : v.Distinct) (h : (s, w) ∈ v.edges) :
    s.child? v = some w := by
  cases v with
  | array vs =>
    obtain ⟨i, rfl, hi⟩ := Value.mem_edges_array.1 h
    exact hi
  | object ms =>
    obtain ⟨name, rfl, hm⟩ := Value.mem_edges_object.1 h
    exact Members.find?_of_mem hd.names hm
  | _ => simp [Value.edges] at h

end Step

namespace Location

theorem get?_append (l m : Location) (v : Value) : get? (l ++ m) v = (get? l v).bind (get? m) := by
  induction l generalizing v with
  | nil => rfl
  | cons s l ih =>
    simp only [List.cons_append, get?]
    cases s.child? v with
    | none => rfl
    | some w => exact ih w

theorem get?_child (l : Location) (s : Step) (v : Value) : get? (l.child s) v = (get? l v).bind s.child? := by
  rw [child, get?_append]
  congr 1
  funext w
  simp only [get?]
  cases s.child? w <;> rfl

/-- What holds everywhere holds at every location. -/
theorem everywhere_get? {p : Value → Prop} {l : Location} {v w : Value} (h : v.Everywhere p)
    (hl : get? l v = some w) : w.Everywhere p := by
  induction l generalizing v with
  | nil =>
    cases hl
    exact h
  | cons s l ih =>
    obtain ⟨u, hu, hw⟩ := Option.bind_eq_some_iff.1 hl
    exact ih ((Value.everywhere_iff.1 h).2 s u (Step.mem_edges_of_child? hu)) hw

/-- On the way to a node every index is below a bound that is above the lengths of all arrays. -/
theorem index_lt_of_get? {bound : Nat} {l : Location} {doc v : Value}
    (hs : doc.Everywhere fun v => v.elements.length < bound) (h : get? l doc = some v) :
    ∀ i, Step.index i ∈ l → i < bound := by
  induction l generalizing doc with
  | nil =>
    intro i hi
    cases hi
  | cons s l ih =>
    obtain ⟨w, hw, hl⟩ := Option.bind_eq_some_iff.1 h
    intro i hi
    rcases List.mem_cons.1 hi with rfl | hi
    · have hget : doc.elements[i]? = some w := hw
      exact Nat.lt_trans (List.getElem?_eq_some_iff.1 hget).1 (Value.everywhere_iff.1 hs).1
    · exact ih ((Value.everywhere_iff.1 hs).2 s w (Step.mem_edges_of_child? hw)) hl i hi

end Location

end PathQuery
