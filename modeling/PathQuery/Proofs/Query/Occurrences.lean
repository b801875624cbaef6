import Mathlib.Data.List.Basic
import PathQuery.Proofs.Query.Chains
import PathQuery.Proofs.Query.Gathering
import PathQuery.Proofs.Query.Moves
import PathQuery.Query.Answer

namespace PathQuery

theorem pathOccurrences_singleton (s : Selector) : pathOccurrences [s] = (s.chains []).map (·.occurrence) := by
  simp [pathOccurrences, pathChains]

theorem pathOccurrences_of_simple {s : Selector} (hs : s.Simple) : pathOccurrences [s] = [] := by
  cases hs <;> simp [pathOccurrences_singleton, Selector.chains]

theorem branchChains_occurrences (ps : List Program) :
    (branchChains ps).map (·.occurrence) = ps.flatMap Program.occurrences := by
  rw [branchChains_eq, List.map_flatMap]
  rfl

/-- The occurrences of the root are gathered in the order of the text. A call has none of its own. -/
def occurrenceGathering : Gathering Nat where
  path := pathOccurrences
  program := Program.occurrences
  own _ _ := []
  path_append := pathOccurrences_append
  path_simple := pathOccurrences_of_simple
  path_current := by simp [pathOccurrences_singleton, Selector.chains]
  path_filter p := pathOccurrences_singleton (.filter p)
  path_computed p := pathOccurrences_singleton (.computed p)
  path_union ps := (pathOccurrences_singleton (.union ps)).trans (branchChains_occurrences ps)
  path_call f ps := by
    rw [List.append_nil, pathOccurrences_singleton]
    exact branchChains_occurrences ps
  program_nil := Program.occurrences_nil
  program_path steps p := by
    rw [Program.occurrences_cons, Instr.chains]
    rfl
  program_cons i p hi := by
    rw [Program.occurrences_cons]
    cases i with
    | path steps => exact absurd rfl (hi steps)
    | _ => rfl

namespace Item

def occurrences : Item → List Nat
  | instr i => i.chains.map (·.occurrence)
  | mark _ => []

@[simp] theorem occurrences_mark (m : Mark) : (mark m).occurrences = [] := rfl

@[simp] theorem occurrences_path (steps : List Selector) :
    (instr (.path steps)).occurrences = pathOccurrences steps := by
  simp [occurrences, Instr.chains, pathOccurrences]

theorem occurrences_eq (i : Item) : i.occurrences = occurrenceGathering.item i := by
  cases i with
  | mark m => rfl
  | instr i => cases i <;> simp [occurrences, Instr.chains, Gathering.item, occurrenceGathering, pathOccurrences]

/-- The occurrences in items that are given in the order of the text. -/
def allOccurrences (items : List Item) : List Nat := items.flatMap occurrences

@[simp] theorem allOccurrences_nil : allOccurrences [] = [] := rfl

@[simp] theorem allOccurrences_cons (i : Item) (items : List Item) :
    allOccurrences (i :: items) = i.occurrences ++ allOccurrences items := rfl

@[simp] theorem allOccurrences_append (items others : List Item) :
    allOccurrences (items ++ others) = allOccurrences items ++ allOccurrences others := by
  simp [allOccurrences]

end Item

/-- The occurrences of the root that have been assembled, in the order of the text. -/
def Assembly.occurrences (a : Assembly) : List Nat := Item.allOccurrences a.items.reverse

theorem Assembly.occurrences_eq (a : Assembly) : a.occurrences = occurrenceGathering.assembly a :=
  congrArg (a.items.reverse.flatMap ·) (funext Item.occurrences_eq)

/-- A step adds the number of an occurrence where it reads one, and nothing else. -/
theorem Turn.perform_occurrences {r : Role} {act : Act} {next : List Role} (ht : Turn r act next) {k : Nat}
    {a b : Assembly} (h : act.perform k a = .ok b) : b.occurrences = a.occurrences ++ List.replicate act.roots k := by
  have hroot : occurrenceGathering.path [.root k] = [k] :=
    (pathOccurrences_singleton _).trans (by simp [Selector.chains])
  rw [a.occurrences_eq, b.occurrences_eq]
  obtain ⟨rfl, hb⟩ | ⟨rfl, e, f, ps, -, hb⟩ | ⟨hr, -, hb⟩ := occurrenceGathering.assembly_perform ht h
  · rw [hb, hroot]
    rfl
  · rw [hb]
    rfl
  · rw [hb]
    cases act with
    | root => exact absurd rfl hr
    | _ => exact (List.append_nil _).symm

namespace Machine

/-- The occurrences that have been read are numbered from zero. -/
def Numbered (m : Machine) : Prop := m.assembly.occurrences = List.range m.roots

theorem numbered_step {env : Env} {m n : Machine} (hm : m.Numbered) (h : m.step env = .ok n) :
    n.Numbered := by
  obtain ⟨r, below, act, next, -, ht, hn⟩ := step_turns h
  unfold Numbered
  rw [ht.perform_occurrences hn.performed, hm, hn.roots_eq]
  cases act with
  | root => exact List.range_succ.symm
  | _ => simp [Act.roots]

end Machine

/-- The occurrences of the root in a compiled program are numbered in the order of the text. -/
theorem Program.occurrences_eq_range {env : Env} {s : String} {p : Program}
    (h : Program.ofText env s = .ok p) : ∃ count, p.occurrences = List.range count := by
  have hstart : (Machine.start s.toList).Numbered := rfl
  obtain ⟨m, hm, -, hf⟩ := Machine.run_ok Machine.numbered_step hstart h
  exact ⟨m.roots, (occurrenceGathering.program_finish hf).trans (m.assembly.occurrences_eq.symm.trans hm)⟩

theorem Query.occurrences_nodup {env : Env} {s : String} {q : Query}
    (h : Query.compileWith env s = .ok q) : q.program.occurrences.Nodup := by
  obtain ⟨p, hp, rfl⟩ := map_eq_ok h
  obtain ⟨count, hc⟩ := Program.occurrences_eq_range hp
  rw [hc]
  exact List.nodup_range

end PathQuery
