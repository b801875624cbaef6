import PathQuery.Proofs.Query.Assembly
import PathQuery.Proofs.Query.Turn

namespace PathQuery

/-- Something that is gathered from paths and programs, in order. What a selector holds is gathered with it, and a call
may add something of its own behind its arguments. -/
structure Gathering (α : Type) where
  path : List Selector → List α
  program : Program → List α
  own : Function → List Program → List α
  path_append : ∀ steps others, path (steps ++ others) = path steps ++ path others
  path_simple : ∀ {x : Selector}, x.Simple → path [x] = []
  path_current : path [.current] = []
  path_filter : ∀ p, path [.filter p] = program p
  path_computed : ∀ p, path [.computed p] = program p
  path_union : ∀ ps : List Program, path [.union ps] = ps.flatMap program
  path_call : ∀ f (ps : List Program), path [.call f ps] = ps.flatMap program ++ own f ps
  program_nil : program [] = []
  program_path : ∀ steps p, program (.path steps :: p) = path steps ++ program p
  program_cons : ∀ i p, (∀ steps, i ≠ .path steps) → program (i :: p) = program p

namespace Gathering

variable {α : Type} (G : Gathering α)

/-- What is gathered from an item. -/
def item : Item → List α
  | .instr (.path steps) => G.path steps
  | _ => []

/-- What is gathered from items that are given in the order of the text. -/
def items (is : List Item) : List α := is.flatMap G.item

/-- What is gathered from an assembly, in the order of the text. -/
def assembly (a : Assembly) : List α := G.items a.items.reverse

@[simp] theorem item_mark (m : Mark) : G.item (.mark m) = [] := rfl

@[simp] theorem item_path (steps : List Selector) : G.item (.instr (.path steps)) = G.path steps := rfl

theorem item_instr {i : Instr} (h : ∀ steps, i ≠ .path steps) : G.item (.instr i) = [] := by
  cases i with
  | path steps => exact absurd rfl (h steps)
  | _ => rfl

@[simp] theorem item_operator (op : Operator) : G.item (.instr op.instr) = [] := by
  cases op <;> rfl

@[simp] theorem items_nil : G.items [] = [] := rfl

@[simp] theorem items_cons (i : Item) (is : List Item) : G.items (i :: is) = G.item i ++ G.items is := rfl

@[simp] theorem items_append (is js : List Item) : G.items (is ++ js) = G.items is ++ G.items js := List.flatMap_append

theorem items_instrs (p : Program) : G.items (p.map .instr) = G.program p := by
  induction p with
  | nil => exact G.program_nil.symm
  | cons i p ih =>
    rw [List.map_cons, items_cons, ih]
    cases i with
    | path steps => exact (G.program_path steps p).symm
    | _ => exact (G.program_cons _ p fun _ h => by cases h).symm

theorem item_of_isMark {isMark : Item → Bool} (hm : ∀ i, isMark (.instr i) = false) {i : Item} (h : isMark i = true) :
    G.item i = [] := by
  cases i with
  | instr i => simp [hm i] at h
  | mark m => rfl

theorem splitItems_flatMap {isBorder : Item → Bool} (hb : ∀ i, isBorder (.instr i) = false) (is : List Item) :
    (splitItems isBorder is).flatMap G.items = G.items is := by
  induction is with
  | nil => rfl
  | cons i is ih =>
    rw [splitItems]
    split
    · next h => simp [G.item_of_isMark hb h, ih]
    · split
      · next he => simp [← ih, he]
      · next part parts he => simp [← ih, he]

theorem program_of_ofItems {is : List Item} {p : Program} (h : Program.ofItems is = .ok p) :
    G.program p = G.items is := by
  obtain ⟨rfl, -⟩ := Program.ofItems_cases h
  exact (G.items_instrs p).symm

variable {a b : Assembly}

@[simp] theorem assembly_mk (is : List Item) (pending : List Pending) :
    G.assembly ⟨is, pending⟩ = G.items is.reverse := rfl

@[simp] theorem assembly_push (a : Assembly) (i : Instr) :
    G.assembly (a.push i) = G.assembly a ++ G.item (.instr i) := by
  simp [Assembly.push, assembly]

@[simp] theorem assembly_pushMark (a : Assembly) (m : Mark) : G.assembly (a.pushMark m) = G.assembly a := by
  simp [Assembly.pushMark, assembly]

@[simp] theorem assembly_openScope (a : Assembly) (m : Mark) : G.assembly (a.openScope m) = G.assembly a := by
  simp [Assembly.openScope, assembly]

@[simp] theorem assembly_pushPath (a : Assembly) (steps : List Selector) :
    G.assembly (a.pushPath steps) = G.assembly a ++ G.path steps := by
  unfold Assembly.pushPath
  split
  · next path is h => simp [assembly, h, G.path_append]
  · simp [assembly]

@[simp] theorem assembly_pushSelector (a : Assembly) (x : Selector) :
    G.assembly (a.pushSelector x) = G.assembly a ++ G.path [x] := G.assembly_pushPath a [x]

theorem items_settledItems (ops : List Operator) : G.items (Assembly.settledItems ops).reverse = [] := by
  induction ops with
  | nil => rfl
  | cons op ops ih => simpa using ih

/-- Operators that are moved behind their operands hold nothing. -/
theorem assembly_of_settled {ops : List Operator} (h : b.items = Assembly.settledItems ops ++ a.items) :
    G.assembly b = G.assembly a := by
  simp [assembly, h, items_settledItems]

@[simp] theorem assembly_pushOperator (a : Assembly) (op : Operator) :
    G.assembly (a.pushOperator op) = G.assembly a := by
  obtain ⟨ops, rest, -, hs⟩ := Assembly.settle_eq op a.items a.pending
  exact G.assembly_of_settled (congrArg Assembly.items hs)

theorem assembly_closeGroup (h : a.closeGroup = .ok b) : G.assembly b = G.assembly a := by
  obtain ⟨ops, -, hi⟩ := Assembly.closeGroup_cases h
  exact G.assembly_of_settled hi

theorem assembly_closeScope (h : a.closeScope = .ok b) : G.assembly b = G.assembly a := by
  obtain ⟨ops, -, hi⟩ := Assembly.closeScope_cases h
  exact G.assembly_of_settled hi

theorem assembly_closeArgument (h : a.closeArgument = .ok b) : G.assembly b = G.assembly a := by
  obtain ⟨c, hc, rfl⟩ := Assembly.closeArgument_cases h
  obtain ⟨ops, rest, -, rfl⟩ := Assembly.settleScope_cases hc
  rw [assembly_pushMark]
  exact G.assembly_of_settled rfl

theorem assembly_closeLastArgument (h : a.closeLastArgument = .ok b) : G.assembly b = G.assembly a := by
  obtain rfl | h := Assembly.closeLastArgument_cases h
  · rfl
  · exact G.assembly_closeArgument h

theorem assembly_takeTo {isMark : Item → Bool} (hm : ∀ i, isMark (.instr i) = false) {m : Item} {is : List Item}
    (h : a.takeTo isMark = .ok (m, is, b)) : G.assembly b ++ G.items is = G.assembly a := by
  obtain ⟨ha, hi, -, -⟩ := Assembly.takeTo_cases h
  simp [assembly, ha, G.item_of_isMark hm hi]

/-- The items of a construct that is closed are no longer in the assembly. -/
theorem assembly_takeScope {isMark : Item → Bool} (hm : ∀ i, isMark (.instr i) = false) {c : Assembly} {m : Item}
    {is : List Item} (hc : a.closeScope = .ok c) (h : c.takeTo isMark = .ok (m, is, b)) :
    G.assembly b ++ G.items is = G.assembly a := by
  rw [G.assembly_takeTo hm h, G.assembly_closeScope hc]

theorem assembly_closeExpression {isMark : Item → Bool} {selector : Program → Selector}
    (hm : ∀ i, isMark (.instr i) = false) (hs : ∀ p, G.path [selector p] = G.program p)
    (h : a.closeExpression isMark selector = .ok b) : G.assembly b = G.assembly a := by
  obtain ⟨c, m, is, d, p, hc, hd, hp, rfl⟩ := Assembly.closeExpression_cases h
  rw [assembly_pushSelector, hs, G.program_of_ofItems hp, G.assembly_takeScope hm hc hd]

/-- Lists of items that become programs one by one. -/
theorem flatMap_mapM {close : List Item → Except SyntaxFault Program}
    (hf : ∀ {is p}, close is = .ok p → G.program p = G.items is) {parts : List (List Item)} {ps : List Program}
    (h : parts.mapM close = .ok ps) : ps.flatMap G.program = parts.flatMap G.items := by
  induction parts generalizing ps with
  | nil =>
    cases h
    rfl
  | cons is parts ih =>
    obtain ⟨p, qs, hp, hq, rfl⟩ := mapM_cons_eq_ok h
    rw [List.flatMap_cons, List.flatMap_cons, hf hp, ih hq]

theorem argumentsOf_flatMap {is : List Item} {ps : List Program} (h : Assembly.argumentsOf is = .ok ps) :
    ps.flatMap G.program = G.items is := by
  have hborder : ∀ i, Item.isArgument (.instr i) = false := fun _ => rfl
  rw [G.flatMap_mapM G.program_of_ofItems h, ← G.splitItems_flatMap hborder is]
  split
  · next hl =>
    -- what is left behind the last mark is empty
    obtain ⟨part, hpart, he⟩ := (Option.any_eq_true _ _).1 hl
    obtain rfl : part = [] := List.isEmpty_iff.1 he
    obtain ⟨front, hfront⟩ := List.getLast?_eq_some_iff.1 hpart
    rw [hfront]
    simp
  · rfl

/-- A call adds what is its own, behind what is gathered from its arguments. -/
theorem assembly_closeCall (h : a.closeCall = .ok b) :
    ∃ (e : Assembly) (f : Function) (ps : List Program), b = e.pushSelector (.call f ps) ∧
      G.assembly b = G.assembly a ++ G.own f ps := by
  obtain ⟨c, d, m, is, e, f, ps, hc, hd, he, ha, rfl⟩ := Assembly.closeCall_cases h
  refine ⟨e, f, ps, rfl, ?_⟩
  rw [assembly_pushSelector, G.path_call, G.argumentsOf_flatMap ha, ← List.append_assoc,
    G.assembly_takeScope (fun _ => rfl) hd he, G.assembly_closeLastArgument hc]

theorem program_branchOf {is : List Item} {p : Program} (h : Assembly.branchOf is = .ok p) :
    G.program p = G.items is := by
  rw [G.program_of_ofItems h]
  split
  · rfl
  · rfl

theorem assembly_closeUnion (h : a.closeUnion = .ok b) : G.assembly b = G.assembly a := by
  obtain ⟨m, is, c, hc, ⟨steps, rfl, rfl⟩ | ⟨branches, hb, rfl⟩⟩ := Assembly.closeUnion_cases h
  · rw [assembly_pushPath, ← G.assembly_takeTo (fun _ => rfl) hc]
    simp
  · rw [assembly_pushSelector, G.path_union, G.flatMap_mapM G.program_branchOf hb,
      G.splitItems_flatMap (fun _ => rfl), G.assembly_takeTo (fun _ => rfl) hc]

theorem program_finish {p : Program} (h : a.finish = .ok p) : G.program p = G.assembly a := by
  obtain ⟨ops, -, hp⟩ := Assembly.finish_cases h
  rw [G.program_of_ofItems hp]
  exact G.assembly_of_settled (b := ⟨Assembly.settledItems ops ++ a.items, []⟩) rfl

/-- An act adds what is gathered from the occurrence of the root that it reads or from the call that it closes, and
nothing else. -/
theorem assembly_perform {r : Role} {act : Act} {next : List Role} (ht : Turn r act next) {k : Nat}
    (h : act.perform k a = .ok b) :
    (act = .root ∧ G.assembly b = G.assembly a ++ G.path [.root k]) ∨
      (act = .closeCall ∧ ∃ (e : Assembly) (f : Function) (ps : List Program),
        b = e.pushSelector (.call f ps) ∧ G.assembly b = G.assembly a ++ G.own f ps) ∨
      (act ≠ .root ∧ act ≠ .closeCall ∧ G.assembly b = G.assembly a) := by
  have hpush : ∀ {i : Instr}, (∀ steps, i ≠ .path steps) → G.assembly (a.push i) = G.assembly a := by
    intro i hi
    rw [assembly_push, G.item_instr hi, List.append_nil]
  cases act with
  | root =>
    cases h
    exact .inl ⟨rfl, by rw [assembly_pushSelector, hpush (by simp)]⟩
  | closeCall => exact .inr (.inl ⟨rfl, G.assembly_closeCall h⟩)
  | skip | openGroup | openUnion | separator | openFilter | openComputed =>
    cases h
    exact .inr (.inr ⟨nofun, nofun, by simp [Assembly.openGroup, assembly, Assembly.pushMark, Assembly.openScope]⟩)
  | current =>
    cases h
    exact .inr (.inr ⟨nofun, nofun, by rw [assembly_pushSelector, hpush (by simp), G.path_current, List.append_nil]⟩)
  | selector x =>
    have hs : x.Simple := by
      cases ht with
      | selector hs => exact hs
      | bound hs => exact hs
      | descent => exact .descend
      | wildcard => exact .wildcard
    cases h
    exact .inr (.inr ⟨nofun, nofun, by rw [assembly_pushSelector, G.path_simple hs, List.append_nil]⟩)
  | literal v =>
    cases h
    exact .inr (.inr ⟨nofun, nofun, hpush (by simp)⟩)
  | operator op =>
    cases h
    exact .inr (.inr ⟨nofun, nofun, G.assembly_pushOperator a op⟩)
  | openCall f =>
    cases h
    exact .inr (.inr ⟨nofun, nofun, by rw [assembly_openScope, hpush (by simp)]⟩)
  | closeGroup => exact .inr (.inr ⟨nofun, nofun, G.assembly_closeGroup h⟩)
  | closeUnion => exact .inr (.inr ⟨nofun, nofun, G.assembly_closeUnion h⟩)
  | closeFilter => exact .inr (.inr ⟨nofun, nofun, G.assembly_closeExpression (fun _ => rfl) G.path_filter h⟩)
  | closeComputed => exact .inr (.inr ⟨nofun, nofun, G.assembly_closeExpression (fun _ => rfl) G.path_computed h⟩)
  | closeArgument => exact .inr (.inr ⟨nofun, nofun, G.assembly_closeArgument h⟩)

end Gathering

end PathQuery
