namespace PathQuery

/-- Named values in insertion order. -/
abbrev Members (α : Type) := List (String × α)

namespace Members

variable {α : Type}

def names (ms : Members α) : List String := ms.map (·.1)

def find? (name : String) : Members α → Option α
  | [] => none
  | (n, v) :: rest => if n = name then some v else find? name rest

/-- Overwrites the member of that name where it stands, or adds one at the end. -/
def insert (name : String) (v : α) : Members α → Members α
  | [] => [(name, v)]
  | (n, w) :: rest => if n = name then (n, v) :: rest else (n, w) :: insert name v rest

/-- Removes the first member of that name; the others keep their order. -/
def erase (name : String) : Members α → Members α
  | [] => []
  | (n, v) :: rest => if n = name then rest else (n, v) :: erase name rest

/-- Members written one after the other: a repeated name keeps its first place and its last value. -/
def ofList (ms : List (String × α)) : Members α :=
  ms.foldl (fun acc (name, v) => acc.insert name v) []

@[simp] theorem find?_nil (name : String) : find? name ([] : Members α) = none := rfl

theorem find?_cons (name n : String) (v : α) (ms : Members α) :
    find? name ((n, v) :: ms) = if n = name then some v else find? name ms := rfl

theorem find?_insert_self (name : String) (v : α) (ms : Members α) :
    find? name (insert name v ms) = some v := by
  induction ms with
  | nil => simp [insert, find?]
  | cons m rest ih =>
    obtain ⟨n, w⟩ := m
    by_cases h : n = name <;> simp [insert, find?, h, ih]

theorem find?_insert_of_ne {name other : String} (h : other ≠ name) (v : α) (ms : Members α) :
    find? other (insert name v ms) = find? other ms := by
  induction ms with
  | nil => simp [insert, find?, Ne.symm h]
  | cons m rest ih =>
    obtain ⟨n, w⟩ := m
    by_cases hn : n = name
    · subst hn; simp [insert, find?, Ne.symm h]
    · simp only [insert, if_neg hn, find?_cons, ih]

theorem insert_of_not_mem {name : String} {ms : Members α} (h : name ∉ names ms) (v : α) :
    insert name v ms = ms ++ [(name, v)] := by
  induction ms with
  | nil => rfl
  | cons m rest ih =>
    obtain ⟨n, w⟩ := m
    simp only [names, List.map_cons, List.mem_cons, not_or] at h
    simp [insert, Ne.symm h.1, ih h.2]

end Members

end PathQuery
