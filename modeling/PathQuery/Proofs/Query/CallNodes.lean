import PathQuery.Proofs.Query.Chains
import PathQuery.Proofs.Query.Gathering

namespace PathQuery

/-- A call in a compiled query. -/
structure CallNode where
  function : Function
  arguments : List Program

mutual

/-- The calls that a selector is or holds. -/
def Selector.callNodes : Selector → List CallNode
  | .union branches => branchCallNodes branches
  | .filter test => Program.callNodes test
  | .computed key => Program.callNodes key
  | .call f arguments => branchCallNodes arguments ++ [⟨f, arguments⟩]
  | _ => []

def pathCallNodes : List Selector → List CallNode
  | [] => []
  | x :: path => x.callNodes ++ pathCallNodes path

def branchCallNodes : List (List Instr) → List CallNode
  | [] => []
  | p :: ps => Program.callNodes p ++ branchCallNodes ps

def Instr.callNodes : Instr → List CallNode
  | .path steps => pathCallNodes steps
  | _ => []

/-- The calls of a program, at any depth. -/
def Program.callNodes : Program → List CallNode
  | [] => []
  | i :: is => i.callNodes ++ Program.callNodes is

end

theorem branchCallNodes_eq (ps : List Program) : branchCallNodes ps = ps.flatMap Program.callNodes := by
  induction ps with
  | nil => simp [branchCallNodes]
  | cons p ps ih => simp [branchCallNodes, ih]

theorem pathCallNodes_append (path steps : List Selector) :
    pathCallNodes (path ++ steps) = pathCallNodes path ++ pathCallNodes steps := by
  induction path with
  | nil => simp [pathCallNodes]
  | cons x path ih => simp [pathCallNodes, ih]

theorem pathCallNodes_singleton (x : Selector) : pathCallNodes [x] = x.callNodes := by
  simp [pathCallNodes]

/-- The calls are gathered in the order of their closing parentheses. -/
def callGathering : Gathering CallNode where
  path := pathCallNodes
  program := Program.callNodes
  own f ps := [⟨f, ps⟩]
  path_append := pathCallNodes_append
  path_simple hx := by cases hx <;> simp [pathCallNodes_singleton, Selector.callNodes]
  path_current := by simp [pathCallNodes_singleton, Selector.callNodes]
  path_filter p := by simp [pathCallNodes_singleton, Selector.callNodes]
  path_computed p := by simp [pathCallNodes_singleton, Selector.callNodes]
  path_union ps := by simp [pathCallNodes_singleton, Selector.callNodes, branchCallNodes_eq]
  path_call f ps := by simp [pathCallNodes_singleton, Selector.callNodes, branchCallNodes_eq]
  program_nil := by simp [Program.callNodes]
  program_path steps p := by simp [Program.callNodes, Instr.callNodes]
  program_cons i p hi := by
    cases i with
    | path steps => exact absurd rfl (hi steps)
    | _ => simp [Program.callNodes, Instr.callNodes]

section membership

variable {p : Program} {path : List Selector} {x : Selector}

theorem callNodes_subset_of_mem_programs (hp : p ∈ x.programs) : p.callNodes ⊆ x.callNodes := by
  intro c hc
  cases x with
  | union branches =>
    have hm : c ∈ branches.flatMap Program.callNodes := List.mem_flatMap.2 ⟨p, hp, hc⟩
    simpa [Selector.callNodes, branchCallNodes_eq] using hm
  | call f arguments =>
    have hm : c ∈ arguments.flatMap Program.callNodes := List.mem_flatMap.2 ⟨p, hp, hc⟩
    simp only [Selector.callNodes, branchCallNodes_eq]
    exact List.mem_append_left _ hm
  | filter test =>
    obtain rfl : p = test := by simpa [Selector.programs] using hp
    simpa [Selector.callNodes] using hc
  | computed key =>
    obtain rfl : p = key := by simpa [Selector.programs] using hp
    simpa [Selector.callNodes] using hc
  | _ => simp [Selector.programs] at hp

theorem callNodes_subset_of_mem (hx : x ∈ path) : x.callNodes ⊆ pathCallNodes path := by
  obtain ⟨before, behind, rfl⟩ := List.append_of_mem hx
  intro c hc
  rw [pathCallNodes_append, pathCallNodes]
  exact List.mem_append_right _ (List.mem_append_left _ hc)

/-- The calls on a path that a query has, at any depth, are among those of the query. -/
theorem Program.HasPath.callNodes_subset (h : p.HasPath path) : pathCallNodes path ⊆ p.callNodes := by
  induction h with
  | operand h =>
    intro c hc
    show c ∈ callGathering.program _
    rw [← callGathering.items_instrs]
    exact List.mem_flatMap.2 ⟨_, List.mem_map_of_mem h, hc⟩
  | inside _ hx hi _ ihouter ihinner =>
    exact fun c hc => ihouter (callNodes_subset_of_mem hx (callNodes_subset_of_mem_programs hi (ihinner hc)))

/-- A call on a path that a query has is one of its calls. -/
theorem Program.HasPath.mem_callNodes (h : p.HasPath path) {f : Function} {ps : List Program}
    (hx : .call f ps ∈ path) : ⟨f, ps⟩ ∈ p.callNodes := by
  refine h.callNodes_subset (callNodes_subset_of_mem hx ?_)
  simp [Selector.callNodes]

end membership

end PathQuery
