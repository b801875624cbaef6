import PathQuery.Query.Evaluation

namespace PathQuery

/-- An occurrence of the root in a path, with the rest of the path behind it. -/
structure Chain where
  occurrence : Nat
  path : List Selector

mutual

/-- The chains that start at a selector or inside it, given the rest of its path. -/
def Selector.chains : Selector → List Selector → List Chain
  | .root occurrence, path => [⟨occurrence, path⟩]
  | .union branches, _ => branchChains branches
  | .filter test, _ => programChains test
  | .computed key, _ => programChains key
  | .call _ arguments, _ => branchChains arguments
  | _, _ => []

/-- The chains of a path, in the order of its text. -/
def pathChains : List Selector → List Chain
  | [] => []
  | x :: path => x.chains path ++ pathChains path

def branchChains : List (List Instr) → List Chain
  | [] => []
  | p :: ps => programChains p ++ branchChains ps

def Instr.chains : Instr → List Chain
  | .path steps => pathChains steps
  | _ => []

def programChains : List Instr → List Chain
  | [] => []
  | i :: is => i.chains ++ programChains is

end

namespace Selector

/-- The programs that belong to a selector. -/
def programs : Selector → List Program
  | union branches => branches
  | filter test => [test]
  | computed key => [key]
  | call _ arguments => arguments
  | _ => []

end Selector

/-- A path is an operand of a program, or of a program inside one of its paths. -/
inductive Program.HasPath : Program → List Selector → Prop
  | operand {p : Program} {path : List Selector} : .path path ∈ p → HasPath p path
  | inside {p inner : Program} {outer path : List Selector} {x : Selector} :
      HasPath p outer → x ∈ outer → inner ∈ x.programs → HasPath inner path → HasPath p path

theorem branchChains_eq (ps : List (List Instr)) : branchChains ps = ps.flatMap programChains := by
  induction ps with
  | nil => simp [branchChains]
  | cons p ps ih => simp [branchChains, ih]

theorem programChains_eq (p : Program) : programChains p = p.flatMap Instr.chains := by
  induction p with
  | nil => simp [programChains]
  | cons i is ih => simp [programChains, ih]

theorem Selector.programChains_subset {x : Selector} {p : Program} (hp : p ∈ x.programs) (path : List Selector) :
    programChains p ⊆ x.chains path := by
  intro c hc
  cases x with
  | union branches =>
    have hm : c ∈ branches.flatMap programChains := List.mem_flatMap.2 ⟨p, hp, hc⟩
    simpa [chains, branchChains_eq] using hm
  | call f arguments =>
    have hm : c ∈ arguments.flatMap programChains := List.mem_flatMap.2 ⟨p, hp, hc⟩
    simpa [chains, branchChains_eq] using hm
  | filter test =>
    obtain rfl : p = test := by simpa [programs] using hp
    simpa [chains] using hc
  | computed key =>
    obtain rfl : p = key := by simpa [programs] using hp
    simpa [chains] using hc
  | _ => simp [programs] at hp

theorem programChains_subset_path {x : Selector} {p : Program} (hp : p ∈ x.programs) :
    ∀ {path : List Selector}, x ∈ path → programChains p ⊆ pathChains path
  | y :: path, hx => by
    intro c hc
    rw [pathChains]
    cases hx with
    | head => exact List.mem_append_left _ (Selector.programChains_subset hp path hc)
    | tail _ hx => exact List.mem_append_right _ (programChains_subset_path hp hx hc)

theorem pathChains_subset_append (before path : List Selector) : pathChains path ⊆ pathChains (before ++ path) := by
  induction before with
  | nil => exact fun _ hc => hc
  | cons x before ih =>
    rw [List.cons_append, pathChains]
    exact fun c hc => List.mem_append_right _ (ih hc)

/-- The chains of a path that a program has are among those of the program. -/
theorem Program.HasPath.chains_subset {p : Program} {path : List Selector} (h : p.HasPath path) :
    pathChains path ⊆ programChains p := by
  induction h with
  | @operand p path h =>
    intro c hc
    rw [programChains_eq]
    refine List.mem_flatMap.2 ⟨_, h, ?_⟩
    simpa [Instr.chains] using hc
  | inside _ hx hi _ ih₁ ih₂ => exact fun c hc => ih₁ (programChains_subset_path hi hx (ih₂ hc))

mutual

/-- What is behind an occurrence of the root stands behind it in the text, too. -/
theorem Selector.chains_sublist : ∀ (x : Selector) (path : List Selector) {c : Chain}, c ∈ x.chains path →
    List.Sublist (c :: pathChains c.path) (x.chains path ++ pathChains path)
  | .root i, path, c, hc => by
    obtain rfl : c = ⟨i, path⟩ := by simpa [Selector.chains] using hc
    simp [Selector.chains]
  | .union branches, path, c, hc => by
    rw [Selector.chains] at hc ⊢
    exact (branchChains_sublist branches hc).trans (List.sublist_append_left _ _)
  | .filter test, path, c, hc => by
    rw [Selector.chains] at hc ⊢
    exact (programChains_sublist test hc).trans (List.sublist_append_left _ _)
  | .computed key, path, c, hc => by
    rw [Selector.chains] at hc ⊢
    exact (programChains_sublist key hc).trans (List.sublist_append_left _ _)
  | .call f arguments, path, c, hc => by
    rw [Selector.chains] at hc ⊢
    exact (branchChains_sublist arguments hc).trans (List.sublist_append_left _ _)
  | .current, _, _, hc | .member _, _, _, hc | .index _, _, _, hc | .wildcard, _, _, hc | .descend, _, _, hc
  | .slice _, _, _, hc => by simp [Selector.chains] at hc

theorem pathChains_sublist : ∀ (path : List Selector) {c : Chain}, c ∈ pathChains path →
    List.Sublist (c :: pathChains c.path) (pathChains path)
  | [], _, hc => by simp [pathChains] at hc
  | x :: path, c, hc => by
    rw [pathChains] at hc ⊢
    rcases List.mem_append.1 hc with hx | hp
    · exact x.chains_sublist path hx
    · exact (pathChains_sublist path hp).trans (List.sublist_append_right _ _)

theorem branchChains_sublist : ∀ (ps : List (List Instr)) {c : Chain}, c ∈ branchChains ps →
    List.Sublist (c :: pathChains c.path) (branchChains ps)
  | [], _, hc => by simp [branchChains] at hc
  | p :: ps, c, hc => by
    rw [branchChains] at hc ⊢
    rcases List.mem_append.1 hc with hp | hps
    · exact (programChains_sublist p hp).trans (List.sublist_append_left _ _)
    · exact (branchChains_sublist ps hps).trans (List.sublist_append_right _ _)

theorem Instr.chains_sublist : ∀ (i : Instr) {c : Chain}, c ∈ i.chains →
    List.Sublist (c :: pathChains c.path) i.chains
  | .path steps, c, hc => by
    rw [Instr.chains] at hc ⊢
    exact pathChains_sublist steps hc
  | .root, _, hc | .current, _, hc | .literal _, _, hc | .unary _, _, hc | .binary _, _, hc => by
    simp [Instr.chains] at hc

theorem programChains_sublist : ∀ (p : List Instr) {c : Chain}, c ∈ programChains p →
    List.Sublist (c :: pathChains c.path) (programChains p)
  | [], _, hc => by simp [programChains] at hc
  | i :: is, c, hc => by
    rw [programChains] at hc ⊢
    rcases List.mem_append.1 hc with hi | his
    · exact (i.chains_sublist hi).trans (List.sublist_append_left _ _)
    · exact (programChains_sublist is his).trans (List.sublist_append_right _ _)

end

/-- The numbers of the occurrences of the root in a path, in the order of its text. -/
def pathOccurrences (path : List Selector) : List Nat := (pathChains path).map (·.occurrence)

/-- The numbers of the occurrences of the root in a program, in the order of its text. -/
def Program.occurrences (p : Program) : List Nat := (programChains p).map (·.occurrence)

@[simp] theorem Program.occurrences_nil : Program.occurrences [] = [] := by simp [occurrences, programChains]

theorem Program.occurrences_cons (i : Instr) (p : Program) :
    Program.occurrences (i :: p) = i.chains.map (·.occurrence) ++ p.occurrences := by
  simp [occurrences, programChains]

@[simp] theorem pathOccurrences_nil : pathOccurrences [] = [] := by simp [pathOccurrences, pathChains]

theorem pathOccurrences_append (path steps : List Selector) :
    pathOccurrences (path ++ steps) = pathOccurrences path ++ pathOccurrences steps := by
  induction path with
  | nil => simp
  | cons x path ih =>
    simp only [pathOccurrences] at ih ⊢
    -- the path behind a selector only stands in its chain, not in its number
    cases x <;> simp [pathChains, Selector.chains, ih]

end PathQuery
