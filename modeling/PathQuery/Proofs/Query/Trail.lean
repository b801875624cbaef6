import Mathlib.Data.List.Chain
import PathQuery.Proofs.Query.Assembly

namespace PathQuery

/-- Where a path can start. -/
inductive Instr.IsAnchor : Instr → Prop
  | root : IsAnchor .root
  | current : IsAnchor .current

mutual

/-- The branches of a union only follow paths. -/
inductive Selector.Tidy : Selector → Prop
  | union {branches : List Program} (h : ∀ p ∈ branches, Program.Trail p) : Selector.Tidy (.union branches)
  | other {x : Selector} (h : ∀ branches, x ≠ .union branches) : Selector.Tidy x

/-- A starting point, or a path from it. -/
inductive Program.Trail : Program → Prop
  | anchor {i : Instr} (hi : i.IsAnchor) : Program.Trail [i]
  | path {i : Instr} {steps : List Selector} (hi : i.IsAnchor) (hs : ∀ x ∈ steps, Selector.Tidy x) :
    Program.Trail [i, .path steps]

end

namespace Item

def isPath : Item → Bool
  | instr (.path _) => true
  | _ => false

/-- What can be read between brackets, or at the top of a query. -/
inductive Piece : Item → Prop
  | anchor {i : Instr} (hi : i.IsAnchor) : Piece (.instr i)
  | path {steps : List Selector} (hs : ∀ x ∈ steps, x.Tidy) : Piece (.instr (.path steps))
  | separator : Piece (.mark .separator)

/-- Of two neighbours at most one is a path, because a path that follows another extends it. -/
def Apart (a b : Item) : Prop := a.isPath = true → b.isPath = false

theorem Apart.symm {a b : Item} (h : Apart a b) : Apart b a := by
  intro hb
  by_contra ha
  have hp : a.isPath = true := by simpa using ha
  simp [h hp] at hb

end Item

/-- Items between brackets or at the top of a query, in the order of the text or against it. -/
structure Pieces (items : List Item) : Prop where
  piece : ∀ i ∈ items, i.Piece
  apart : items.IsChain Item.Apart

namespace Pieces

variable {items : List Item} {p : Program}

theorem nil : Pieces [] := ⟨by simp, .nil⟩

theorem tail {i : Item} (h : Pieces (i :: items)) : Pieces items :=
  ⟨fun j hj => h.piece j (List.mem_cons_of_mem _ hj), h.apart.tail⟩

/-- A piece that is not a path can be added anywhere. -/
theorem cons {i : Item} (h : Pieces items) (hi : i.Piece) (hp : i.isPath = false) : Pieces (i :: items) := by
  constructor
  · intro j hj
    rcases List.mem_cons.1 hj with rfl | hj
    · exact hi
    · exact h.piece j hj
  · cases items with
    | nil => exact .singleton _
    | cons k items =>
      refine List.isChain_cons_cons.2 ⟨?_, h.apart⟩
      intro hq
      simp [hp] at hq

theorem reverse (h : Pieces items) : Pieces items.reverse := by
  constructor
  · intro i hi
    exact h.piece i (List.mem_reverse.1 hi)
  · refine List.isChain_reverse.2 (h.apart.imp ?_)
    intro a b hab
    exact hab.symm

theorem of_append {before part behind : List Item} (h : Pieces (before ++ part ++ behind)) : Pieces part :=
  ⟨fun i hi => h.piece i (by simp [hi]), h.apart.left_of_append.right_of_append⟩

theorem instr_cases {i : Instr} (h : (Item.instr i).Piece) :
    i.IsAnchor ∨ ∃ steps, i = .path steps ∧ ∀ x ∈ steps, x.Tidy := by
  cases h with
  | anchor hi => exact .inl hi
  | path hs => exact .inr ⟨_, rfl, hs⟩

/-- Pieces take no value from the stack that they do not put back. -/
theorem height_le (hp : Pieces (p.map .instr)) {m n : Nat} (h : Program.height? m p = some n) : m ≤ n := by
  induction p generalizing m with
  | nil =>
    cases h
    exact Nat.le_refl _
  | cons i p ih =>
    rw [Program.height?] at h
    split at h
    · next hm =>
      have hi := ih hp.tail h
      rcases instr_cases (hp.piece (.instr i) (by simp)) with ha | ⟨steps, rfl, -⟩
      · cases ha <;> simp [Instr.operands] at hi <;> omega
      · have ho : (Instr.path steps).operands = 1 := rfl
        omega
    · cases h

/-- Pieces that leave one value start somewhere and follow at most one path. -/
theorem trail (hp : Pieces (p.map .instr)) (h : Program.height? 0 p = some 1) : p.Trail := by
  cases p with
  | nil => cases h
  | cons i p =>
    rcases instr_cases (hp.piece (.instr i) (by simp)) with hi | ⟨steps, rfl, -⟩
    · have h1 : Program.height? 1 p = some 1 := by
        cases hi <;> simpa [Program.height?, Instr.operands] using h
      cases p with
      | nil => exact .anchor hi
      | cons j p =>
        rcases instr_cases (hp.piece (.instr j) (by simp)) with hj | ⟨steps, rfl, hs⟩
        · have h2 : Program.height? 2 p = some 1 := by
            cases hj <;> simpa [Program.height?, Instr.operands] using h1
          have hle := height_le hp.tail.tail h2
          omega
        · have h2 : Program.height? 1 p = some 1 := by
            simpa [Program.height?, Instr.operands] using h1
          cases p with
          | nil => exact .path hi hs
          | cons k p =>
            rcases instr_cases (hp.piece (.instr k) (by simp)) with hk | ⟨more, rfl, -⟩
            · have h3 : Program.height? 2 p = some 1 := by
                cases hk <;> simpa [Program.height?, Instr.operands] using h2
              have hle := height_le hp.tail.tail.tail h3
              omega
            · -- two paths never stand side by side
              have hc := (List.isChain_cons_cons.1 hp.tail.apart).1 rfl
              simp [Item.isPath] at hc
    · cases h

theorem ofItems_trail (hp : Pieces items) (h : Program.ofItems items = .ok p) : p.Trail := by
  obtain ⟨rfl, hh⟩ := Program.ofItems_cases h
  exact hp.trail hh

end Pieces

end PathQuery
