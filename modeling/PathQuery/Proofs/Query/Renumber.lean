import PathQuery.Proofs.Query.Answers
import PathQuery.Proofs.Query.Cache

namespace PathQuery

open Eval Strategy

mutual

/-- The selector with other numbers for the occurrences of the root. -/
def Selector.renumber (f : Nat → Nat) : Selector → Selector
  | .root occurrence => .root (f occurrence)
  | .union branches => .union (renumberBranches f branches)
  | .filter test => .filter (renumberProgram f test)
  | .computed key => .computed (renumberProgram f key)
  | .call g arguments => .call g (renumberBranches f arguments)
  | .current => .current
  | .member name => .member name
  | .index i => .index i
  | .wildcard => .wildcard
  | .descend => .descend
  | .slice range => .slice range

def renumberPath (f : Nat → Nat) : List Selector → List Selector
  | [] => []
  | x :: path => x.renumber f :: renumberPath f path

def renumberBranches (f : Nat → Nat) : List (List Instr) → List (List Instr)
  | [] => []
  | p :: ps => renumberProgram f p :: renumberBranches f ps

def Instr.renumber (f : Nat → Nat) : Instr → Instr
  | .path steps => .path (renumberPath f steps)
  | .root => .root
  | .current => .current
  | .literal v => .literal v
  | .unary op => .unary op
  | .binary op => .binary op

def renumberProgram (f : Nat → Nat) : List Instr → List Instr
  | [] => []
  | i :: is => i.renumber f :: renumberProgram f is

end

variable {f : Nat → Nat}

theorem renumberPath_eq (path : List Selector) : renumberPath f path = path.map (·.renumber f) := by
  induction path with
  | nil => rw [renumberPath, List.map_nil]
  | cons x path ih => rw [renumberPath, ih, List.map_cons]

theorem renumberBranches_eq (ps : List Program) : renumberBranches f ps = ps.map (renumberProgram f) := by
  induction ps with
  | nil => rw [renumberBranches, List.map_nil]
  | cons p ps ih => rw [renumberBranches, ih, List.map_cons]

theorem renumberProgram_eq (p : Program) : renumberProgram f p = p.map (·.renumber f) := by
  induction p with
  | nil => rw [renumberProgram, List.map_nil]
  | cons i p ih => rw [renumberProgram, ih, List.map_cons]

theorem renumberPath_append (path steps : List Selector) :
    renumberPath f (path ++ steps) = renumberPath f path ++ renumberPath f steps := by
  simp [renumberPath_eq]

theorem renumberProgram_append (p q : Program) :
    renumberProgram f (p ++ q) = renumberProgram f p ++ renumberProgram f q := by
  simp [renumberProgram_eq]

@[simp] theorem Selector.kind_renumber (x : Selector) : (x.renumber f).kind = x.kind := by
  cases x <;> simp [renumber, kind]

@[simp] theorem Kind.ofPath_renumber (path : List Selector) : ofPath (renumberPath f path) = ofPath path := by
  simp [ofPath, renumberPath_eq, List.any_map, Function.comp_def]

theorem Selector.Simple.renumber {x : Selector} (h : x.Simple) : x.renumber f = x := by
  cases h <;> simp [Selector.renumber]

@[simp] theorem Instr.operands_renumber (i : Instr) : (i.renumber f).operands = i.operands := by
  cases i <;> simp [renumber, operands]

@[simp] theorem Operator.renumber_instr (op : Operator) : op.instr.renumber f = op.instr := by
  cases op <;> simp [instr, Instr.renumber]

theorem Program.height?_renumber (n : Nat) (p : Program) : height? n (renumberProgram f p) = height? n p := by
  induction p generalizing n with
  | nil => simp [renumberProgram]
  | cons i p ih => simp [renumberProgram, height?, ih]

section composition

variable {g : Nat → Nat}

mutual

theorem Selector.renumber_renumber : ∀ x : Selector, (x.renumber f).renumber g = x.renumber fun i => g (f i)
  | .root _ | .current | .member _ | .index _ | .wildcard | .descend | .slice _ => by simp only [Selector.renumber]
  | .union branches => by simp only [Selector.renumber, renumberBranches_renumberBranches branches]
  | .filter test => by simp only [Selector.renumber, renumberProgram_renumberProgram test]
  | .computed key => by simp only [Selector.renumber, renumberProgram_renumberProgram key]
  | .call h arguments => by simp only [Selector.renumber, renumberBranches_renumberBranches arguments]

theorem renumberPath_renumberPath : ∀ path : List Selector,
    renumberPath g (renumberPath f path) = renumberPath (fun i => g (f i)) path
  | [] => by simp only [renumberPath]
  | x :: path => by simp only [renumberPath, x.renumber_renumber, renumberPath_renumberPath path]

theorem renumberBranches_renumberBranches : ∀ ps : List (List Instr),
    renumberBranches g (renumberBranches f ps) = renumberBranches (fun i => g (f i)) ps
  | [] => by simp only [renumberBranches]
  | p :: ps => by
    simp only [renumberBranches, renumberProgram_renumberProgram p, renumberBranches_renumberBranches ps]

theorem Instr.renumber_renumber : ∀ i : Instr, (i.renumber f).renumber g = i.renumber fun k => g (f k)
  | .root | .current | .literal _ | .unary _ | .binary _ => by simp only [Instr.renumber]
  | .path steps => by simp only [Instr.renumber, renumberPath_renumberPath steps]

theorem renumberProgram_renumberProgram : ∀ p : List Instr,
    renumberProgram g (renumberProgram f p) = renumberProgram (fun i => g (f i)) p
  | [] => by simp only [renumberProgram]
  | i :: is => by simp only [renumberProgram, i.renumber_renumber, renumberProgram_renumberProgram is]

end

end composition

section evaluation

variable {t : Strategy} {s : Setting}

mutual

theorem follow_renumber : ∀ (x : Selector) (go : Node → Eval Matches) (kind : Kind) (n : Node),
    follow t s (x.renumber f) go kind n = follow (fun i => t (f i)) s x go kind n
  | .root i, _, _, _ | .current, _, _, _ | .member _, _, _, _ | .index _, _, _, _ | .wildcard, _, _, _
  | .descend, _, _, _ | .slice _, _, _, _ => by simp only [Selector.renumber, follow]
  | .union branches, go, kind, n => by simp only [Selector.renumber, follow, selectBranches_renumber branches]
  | .filter test, go, kind, n => by simp only [Selector.renumber, follow, run_renumber test]
  | .computed key, go, kind, n => by simp only [Selector.renumber, follow, run_renumber key]
  | .call g arguments, go, kind, n => by simp only [Selector.renumber, follow, runArguments_renumber arguments]

/-- A path with other numbers, followed by a strategy that takes them. -/
theorem select_renumber : ∀ (path : List Selector) (n : Node),
    select t s (renumberPath f path) n = select (fun i => t (f i)) s path n
  | [], n => by simp only [renumberPath, select]
  | x :: path, n => by
    have hpath : select t s (renumberPath f path) = select (fun i => t (f i)) s path :=
      funext fun k => select_renumber path k
    simp only [renumberPath, select, Kind.ofPath_renumber, hpath, follow_renumber x]

theorem selectBranches_renumber : ∀ (branches : List (List Instr)) (n : Node) (go : Node → Eval Matches),
    selectBranches t s (renumberBranches f branches) n go = selectBranches (fun i => t (f i)) s branches n go
  | [], _, _ => by simp only [renumberBranches, selectBranches]
  | branch :: branches, n, go => by
    simp only [renumberBranches, selectBranches, run_renumber branch, selectBranches_renumber branches]

theorem runArguments_renumber : ∀ (arguments : List (List Instr)) (n : Node),
    runArguments t s (renumberBranches f arguments) n = runArguments (fun i => t (f i)) s arguments n
  | [], _ => by simp only [renumberBranches, runArguments]
  | argument :: arguments, n => by
    simp only [renumberBranches, runArguments, run_renumber argument, runArguments_renumber arguments]

theorem execute_renumber : ∀ (i : Instr) (n : Node) (stack : List Operand),
    execute t s (i.renumber f) n stack = execute (fun i => t (f i)) s i n stack
  | .root, _, _ | .current, _, _ | .literal _, _, _ => by simp only [Instr.renumber, execute]
  | .path path, n, [] => by simp only [Instr.renumber, execute]
  | .path path, n, top :: stack => by simp only [Instr.renumber, execute, select_renumber path]
  | .unary op, n, [] | .unary op, n, top :: stack | .binary op, n, [] | .binary op, n, [_]
  | .binary op, n, right :: left :: stack => by simp only [Instr.renumber, execute]

theorem run_renumber : ∀ (p : List Instr) (n : Node) (stack : List Operand),
    run t s (renumberProgram f p) n stack = run (fun i => t (f i)) s p n stack
  | [], _, _ => by simp only [renumberProgram, run]
  | i :: is, n, stack => by
    have his : run t s (renumberProgram f is) n = run (fun i => t (f i)) s is n :=
      funext fun k => run_renumber is n k
    simp only [renumberProgram, run, his, execute_renumber i]

end

end evaluation

end PathQuery
