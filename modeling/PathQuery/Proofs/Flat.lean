import Mathlib.Data.List.Nodup
import PathQuery.Flat
import PathQuery.Proofs.Json.Edges
import PathQuery.Proofs.Location.Text

namespace PathQuery

namespace Members

variable {α : Type}

theorem foldl_insert {acc ms : Members α} (h : (names (acc ++ ms)).Nodup) :
    ms.foldl (fun acc (name, v) => insert name v acc) acc = acc ++ ms := by
  induction ms generalizing acc with
  | nil => simp
  | cons m ms ih =>
    obtain ⟨name, v⟩ := m
    have hsplit : acc ++ (name, v) :: ms = acc ++ [(name, v)] ++ ms := by simp
    have hnew : name ∉ names acc := by
      rw [names, List.map_append, List.nodup_append] at h
      intro hmem
      exact h.2.2 name hmem name (by simp) rfl
    rw [List.foldl_cons, hsplit]
    change ms.foldl _ (insert name v acc) = _
    rw [insert_of_not_mem hnew, ih (hsplit ▸ h)]

/-- Members of different names are kept as they are written. -/
theorem ofList_eq_self {ms : Members α} (h : (names ms).Nodup) : ofList ms = ms := foldl_insert h

end Members

namespace Value

theorem elementLeaves_eq (l : Location) (i : Nat) (vs : List Value) :
    elementLeaves l i vs = (vs.zipIdx i).flatMap fun e => leaves (l.child (.index e.2)) e.1 := by
  induction vs generalizing i with
  | nil => rfl
  | cons v vs ih => rw [elementLeaves, ih, List.zipIdx_cons, List.flatMap_cons]

theorem memberLeaves_eq (l : Location) (ms : List (String × Value)) :
    memberLeaves l ms = ms.flatMap fun m => leaves (l.child (.name m.1)) m.2 := by
  induction ms with
  | nil => rfl
  | cons m ms ih => rw [memberLeaves, ih, List.flatMap_cons]

/-- A value is a leaf if no edge starts from it; otherwise its leaves are those of its edges. -/
theorem leaves_eq (l : Location) (v : Value) :
    leaves l v = if v.edges.isEmpty then [(l, v)] else v.edges.flatMap fun e => leaves (l.child e.1) e.2 := by
  cases v with
  | array vs =>
    cases vs with
    | nil => rfl
    | cons v vs => simp [leaves, elementLeaves_eq, edges, List.flatMap_map]
  | object ms =>
    cases ms with
    | nil => rfl
    | cons m ms => simp [leaves, memberLeaves_eq, edges, List.flatMap_map]
  | _ => rfl

theorem leaves_append (l m : Location) (v : Value) :
    leaves (l ++ m) v = (leaves m v).map fun e => (l ++ e.1, e.2) := by
  induction v using edge_induction generalizing m with
  | node v ih =>
    rw [leaves_eq, leaves_eq m]
    split
    · rfl
    · rw [List.map_flatMap]
      refine List.flatMap_congr fun e he => ?_
      rw [← ih e.1 e.2 he (m.child e.1), Location.child, Location.child, List.append_assoc]

/-- The leaves of a value are those of the values below it, one step further down. -/
theorem leaves_root_eq (v : Value) :
    leaves [] v = if v.edges.isEmpty then [([], v)]
      else v.edges.flatMap fun e => (leaves [] e.2).map fun f => (e.1 :: f.1, f.2) := by
  rw [leaves_eq]
  split
  · rfl
  · refine List.flatMap_congr fun e _ => ?_
    exact leaves_append [e.1] [] e.2

theorem leaves_ne_nil (v : Value) : leaves [] v ≠ [] := by
  induction v using edge_induction with
  | node v ih =>
    rw [leaves_root_eq]
    split
    · simp
    · next h =>
      obtain ⟨e, he⟩ := List.exists_mem_of_ne_nil v.edges (by simpa using h)
      obtain ⟨f, hf⟩ := List.exists_mem_of_ne_nil _ (ih e.1 e.2 he)
      exact List.ne_nil_of_mem (List.mem_flatMap.2 ⟨e, he, List.mem_map.2 ⟨f, hf, rfl⟩⟩)

theorem leaves_fits {v : Value} (hs : v.Sized) : ∀ e ∈ leaves [] v, e.1.Fits := by
  induction v using edge_induction with
  | node v ih =>
    rw [leaves_root_eq]
    split
    · simp [Location.Fits]
    · intro e he
      obtain ⟨⟨s, w⟩, hw, hmem⟩ := List.mem_flatMap.1 he
      obtain ⟨f, hf, rfl⟩ := List.mem_map.1 hmem
      have hfits : s.Fits := by
        cases v with
        | array vs =>
          obtain ⟨i, rfl, hi⟩ := mem_edges_array.1 hw
          have hlt : i < vs.length := (List.getElem?_eq_some_iff.1 hi).1
          exact Nat.lt_trans hlt hs.length
        | object ms =>
          obtain ⟨name, rfl, -⟩ := mem_edges_object.1 hw
          trivial
        | _ => simp [edges] at hw
      have hrest := ih s w hw (hs.edge hw) f hf
      intro t ht
      rcases List.mem_cons.1 ht with rfl | ht
      · exact hfits
      · exact hrest t ht

/-- A leaf stands at its location. -/
theorem get?_of_mem_leaves {v : Value} (hd : v.Distinct) : ∀ e ∈ leaves [] v, Location.get? e.1 v = some e.2 := by
  induction v using edge_induction with
  | node v ih =>
    rw [leaves_root_eq]
    split
    · simp [Location.get?]
    · intro e he
      obtain ⟨⟨s, w⟩, hw, hmem⟩ := List.mem_flatMap.1 he
      obtain ⟨f, hf, rfl⟩ := List.mem_map.1 hmem
      rw [Location.get?, Step.child?_of_mem_edges hd hw]
      exact ih s w hw (hd.edge hw) f hf

/-- Different leaves are at different locations. -/
theorem leaves_nodup {v : Value} (hd : v.Distinct) : ((leaves [] v).map (·.1)).Nodup := by
  induction v using edge_induction with
  | node v ih =>
    rw [leaves_root_eq]
    split
    · simp
    · rw [List.map_flatMap, List.nodup_flatMap]
      refine ⟨fun e he => ?_, ?_⟩
      · have hrest := ih e.1 e.2 he (hd.edge he)
        have hcons : ((leaves [] e.2).map fun f => (e.1 :: f.1, f.2)).map (·.1) =
            ((leaves [] e.2).map (·.1)).map (e.1 :: ·) := by simp
        rw [hcons]
        exact hrest.map fun l m h => (List.cons.inj h).2
      · have hsteps := List.pairwise_map.1 (hd.edges_nodup)
        refine hsteps.imp fun {e f} hne l hl hm => ?_
        obtain ⟨a, ha, rfl⟩ := List.mem_map.1 hl
        obtain ⟨a', -, rfl⟩ := List.mem_map.1 ha
        obtain ⟨b, hb, hab⟩ := List.mem_map.1 hm
        obtain ⟨b', -, rfl⟩ := List.mem_map.1 hb
        exact hne (List.cons.inj hab).1.symm

/-- Writes leaves one after another; `key` names the member of each location. -/
def placeAll (key : Location → String) (slot : Value) (es : List (Location × Value)) : Except FlatError Value :=
  es.foldlM (fun doc e => place (key e.1) e.2 e.1 doc) slot

theorem placeAll_append (key : Location → String) (slot : Value) (es fs : List (Location × Value)) :
    placeAll key slot (es ++ fs) = (placeAll key slot es).bind fun v => placeAll key v fs := List.foldlM_append

/-- What is written below the step of a place that a container holds stays below it. -/
theorem placeAll_below {s : Step} {wrap : Value → Value}
    (hwrap : ∀ key new l w, place key new (s :: l) (wrap w) = (place key new l w).map wrap)
    (key : Location → String) (w : Value) (es : List (Location × Value)) :
    placeAll key (wrap w) (es.map fun e => (s :: e.1, e.2)) =
      (placeAll (fun l => key (s :: l)) w es).map wrap := by
  induction es generalizing w with
  | nil => rfl
  | cons e es ih =>
    simp only [placeAll, List.map_cons, List.foldlM_cons, hwrap] at ih ⊢
    cases place (key (s :: e.1)) e.2 e.1 w with
    | error err => rfl
    | ok v => exact ih v

/-- The first leaf below a step makes its place. -/
theorem placeAll_first {s : Step} {start : Value} {wrap : Value → Value}
    (hstart : ∀ key new l, place key new (s :: l) start = (place key new l null).map wrap)
    (hwrap : ∀ key new l w, place key new (s :: l) (wrap w) = (place key new l w).map wrap)
    (key : Location → String) {es : List (Location × Value)} (hne : es ≠ []) :
    placeAll key start (es.map fun e => (s :: e.1, e.2)) =
      (placeAll (fun l => key (s :: l)) null es).map wrap := by
  obtain ⟨e, es, rfl⟩ := List.exists_cons_of_ne_nil hne
  have hbelow := placeAll_below hwrap key
  simp only [placeAll, List.map_cons, List.foldlM_cons, hstart] at hbelow ⊢
  cases place (key (s :: e.1)) e.2 e.1 null with
  | error err => rfl
  | ok v => exact hbelow v es

/-- An array that is being written. Without elements it is not yet written. -/
def partArray : List Value → Value
  | [] => null
  | v :: vs => array (v :: vs)

/-- An object that is being written. -/
def partObject : List (String × Value) → Value
  | [] => null
  | m :: ms => object (m :: ms)

theorem place_next_index (key : String) (new : Value) (l : Location) (vs : List Value) :
    place key new (.index vs.length :: l) (partArray vs) =
      (place key new l null).map fun v => array (vs ++ [v]) := by
  cases vs with
  | nil => rfl
  | cons v vs => simp [partArray, place, List.drop_of_length_le]

theorem place_last_index (key : String) (new : Value) (l : Location) (vs : List Value) (w : Value) :
    place key new (.index vs.length :: l) (array (vs ++ [w])) =
      (place key new l w).map fun v => array (vs ++ [v]) := by
  have hlt : ¬vs.length > (vs ++ [w]).length := by simp
  rw [place, if_neg hlt]
  simp

theorem place_next_name (key : String) (new : Value) (l : Location) {ms : List (String × Value)} {name : String}
    (hn : name ∉ Members.names ms) :
    place key new (.name name :: l) (partObject ms) =
      (place key new l null).map fun v => object (ms ++ [(name, v)]) := by
  cases ms with
  | nil => rfl
  | cons m ms =>
    have hnone : Members.find? name (m :: ms) = none := Members.find?_of_not_mem hn
    simp only [partObject, place, hnone, Option.getD_none, Members.insert_of_not_mem hn]

theorem place_last_name (key : String) (new : Value) (l : Location) {ms : List (String × Value)} {name : String}
    (hn : name ∉ Members.names ms) (w : Value) :
    place key new (.name name :: l) (object (ms ++ [(name, w)])) =
      (place key new l w).map fun v => object (ms ++ [(name, v)]) := by
  simp only [place, Members.find?_append_of_not_mem hn, Members.insert_append_of_not_mem hn, Option.getD_some]

theorem placeAll_elements {vs : List Value}
    (ih : ∀ v ∈ vs, ∀ key, placeAll key null (leaves [] v) = .ok v) (done : List Value) (key : Location → String) :
    placeAll key (partArray done) ((vs.zipIdx done.length).flatMap fun e =>
        (leaves [] e.1).map fun f => (.index e.2 :: f.1, f.2)) = .ok (partArray (done ++ vs)) := by
  induction vs generalizing done with
  | nil => simp [placeAll, pure, Except.pure]
  | cons v vs ihs =>
    have hfirst := placeAll_first (fun key new l => place_next_index key new l done)
      (fun key new l w => place_last_index key new l done w) key (leaves_ne_nil v)
    have hpart : array (done ++ [v]) = partArray (done ++ [v]) := by cases done <;> rfl
    have hlength : (done ++ [v]).length = done.length + 1 := by simp
    have hrest := ihs (fun w hw => ih w (by simp [hw])) (done ++ [v])
    rw [hlength, List.append_assoc] at hrest
    rw [List.zipIdx_cons, List.flatMap_cons, placeAll_append, hfirst, ih v (by simp)]
    simp only [Except.map, Except.bind, hpart]
    exact hrest

theorem placeAll_members {ms : List (String × Value)}
    (ih : ∀ m ∈ ms, ∀ key, placeAll key null (leaves [] m.2) = .ok m.2) (done : List (String × Value))
    (hn : (Members.names (done ++ ms)).Nodup) (key : Location → String) :
    placeAll key (partObject done) (ms.flatMap fun m => (leaves [] m.2).map fun f => (.name m.1 :: f.1, f.2)) =
      .ok (partObject (done ++ ms)) := by
  induction ms generalizing done with
  | nil => simp [placeAll, pure, Except.pure]
  | cons m ms ihs =>
    have hsplit : done ++ m :: ms = done ++ [m] ++ ms := by simp
    have hnew : m.1 ∉ Members.names done := by
      rw [Members.names, List.map_append, List.nodup_append] at hn
      intro hmem
      exact hn.2.2 m.1 hmem m.1 (by simp) rfl
    have hfirst := placeAll_first (fun key new l => place_next_name key new l hnew)
      (fun key new l w => place_last_name key new l hnew w) key (leaves_ne_nil m.2)
    have hpart : object (done ++ [m]) = partObject (done ++ [m]) := by cases done <;> rfl
    rw [List.flatMap_cons, placeAll_append, hfirst, ih m (by simp)]
    simp only [Except.map, Except.bind, hpart, hsplit]
    exact ihs (fun w hw => ih w (by simp [hw])) (done ++ [m]) (hsplit ▸ hn)

/-- The leaves of a document, written in their order, make the document. -/
theorem placeAll_leaves {v : Value} (hd : v.Distinct) (key : Location → String) :
    placeAll key null (leaves [] v) = .ok v := by
  induction v using edge_induction generalizing key with
  | node v ih =>
    rw [leaves_root_eq]
    split
    · rfl
    · next hne =>
      cases v with
      | array vs =>
        have hall : ∀ w ∈ vs, ∀ key, placeAll key null (leaves [] w) = .ok w := by
          intro w hw
          obtain ⟨i, hi⟩ := List.getElem?_of_mem hw
          have he : (.index i, w) ∈ (array vs).edges := mem_edges_array.2 ⟨i, rfl, hi⟩
          exact ih _ w he (hd.edge he)
        have hplace := placeAll_elements hall [] key
        have hcons : vs ≠ [] := by
          intro he
          subst he
          exact hne rfl
        obtain ⟨w, ws, rfl⟩ := List.exists_cons_of_ne_nil hcons
        rw [edges, List.flatMap_map]
        exact hplace
      | object ms =>
        have hall : ∀ m ∈ ms, ∀ key, placeAll key null (leaves [] m.2) = .ok m.2 := by
          intro m hm
          have he : (.name m.1, m.2) ∈ (object ms).edges := mem_edges_object.2 ⟨m.1, rfl, hm⟩
          exact ih _ m.2 he (hd.edge he)
        have hplace := placeAll_members hall [] hd.names key
        have hcons : ms ≠ [] := by
          intro he
          subst he
          exact hne rfl
        obtain ⟨m, ms, rfl⟩ := List.exists_cons_of_ne_nil hcons
        rw [edges, List.flatMap_map]
        exact hplace
      | _ => exact absurd rfl hne

/-- The members of a flat document have different names. -/
theorem flatten_eq {v : Value} (hd : v.Distinct) :
    flatten v = object ((leaves [] v).map fun e => (e.1.text, e.2)) := by
  have hnames : (Members.names ((leaves [] v).map fun e => (e.1.text, e.2))).Nodup := by
    have htexts : Members.names ((leaves [] v).map fun e => (e.1.text, e.2)) =
        ((leaves [] v).map (·.1)).map Location.text := by simp [Members.names]
    rw [htexts]
    exact (leaves_nodup hd).map fun l m => Location.text_injective
  exact congrArg object (Members.ofList_eq_self hnames)

theorem foldlM_placeMember (slot : Value) {es : List (Location × Value)} (h : ∀ e ∈ es, e.1.Fits) :
    (es.map fun e => (e.1.text, e.2)).foldlM placeMember slot = placeAll Location.text slot es := by
  induction es generalizing slot with
  | nil => rfl
  | cons e es ih =>
    have hplace : placeMember slot (e.1.text, e.2) = place e.1.text e.2 e.1 slot := by
      simp only [placeMember, Location.read_text (h e (by simp))]
    rw [List.map_cons, List.foldlM_cons, placeAll, List.foldlM_cons, hplace]
    refine bind_congr fun doc => ?_
    exact ih doc fun f hf => h f (by simp [hf])

/-- A document is rebuilt from its flat form: its members in their order, its numbers as they are. -/
theorem unflatten_flatten (v : Value) (hd : v.Distinct) (hs : v.Sized) : unflatten (flatten v) = .ok v := by
  rw [flatten_eq hd, unflatten, foldlM_placeMember null (leaves_fits hs)]
  exact placeAll_leaves hd Location.text

theorem unflatten_flatten_nested :
    let doc := object [("it's", array [null, object [("", array []), ("\n", number (.float 0.5))]]), ("0", ofInt 1)]
    doc.Distinct ∧ doc.Sized ∧ unflatten (flatten doc) = .ok doc := by
  intro doc
  have hd : doc.Distinct := by simp [doc, Distinct, members, Members.names, ofInt]
  have hs : doc.Sized := by simp [doc, Sized, elements, ofInt, UInt64.size]
  exact ⟨hd, hs, unflatten_flatten doc hd hs⟩

end Value

end PathQuery
