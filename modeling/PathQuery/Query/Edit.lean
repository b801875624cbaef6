import PathQuery.Query.Answer

namespace PathQuery

/-- An edited document and the places that were visited, with their values just before. -/
structure Edited where
  doc : Value
  visited : List (Location × Value)

/-- Changes the nodes at some locations, one after the other. A location that does not exist is passed over. -/
def Value.updateAt (f : Location → Value → Value) (doc : Value) : List Location → Edited
  | [] => ⟨doc, []⟩
  | l :: ls =>
    match l.get? doc, Location.change? (fun v => some (f l v)) l doc with
    | some v, some doc' =>
      let rest := updateAt f doc' ls
      ⟨rest.doc, (l, v) :: rest.visited⟩
    | _, _ => updateAt f doc ls

/-- Removes the nodes at some locations, one after the other, and counts those that existed. -/
def Value.removeAt (doc : Value) : List Location → Value × Nat
  | [] => (doc, 0)
  | l :: ls =>
    match l.remove? doc with
    | some doc' => ((removeAt doc' ls).1, (removeAt doc' ls).2 + 1)
    | none => removeAt doc ls

namespace Query

/-- Changes every match. Computed values have no place in the document and are passed over. -/
def update (q : Query) (f : Location → Value → Value) (doc : Value) : Answer Edited :=
  (q.documentLocations doc).map (doc.updateAt f)

def replace (q : Query) (new : Value) (doc : Value) : Answer Edited := q.update (fun _ _ => new) doc

/-- Removes every match and counts them. The root cannot be removed. -/
def remove (q : Query) (doc : Value) : Answer (Value × Nat) :=
  (q.documentLocations doc).map doc.removeAt

end Query

end PathQuery
