import PathQuery.Proofs.Query.Syntax

namespace PathQuery

open Syntax

/-- Items without borders, before a border or at the end. -/
theorem splitItems_append {isBorder : Item → Bool} {items : List Item} (h : ∀ i ∈ items, isBorder i = false) :
    splitItems isBorder items = [items] ∧ ∀ border rest, isBorder border = true →
      splitItems isBorder (items ++ border :: rest) = items :: splitItems isBorder rest := by
  induction items with
  | nil =>
    refine ⟨rfl, ?_⟩
    intro border rest hb
    rw [List.nil_append, splitItems, if_pos hb]
  | cons i items ih =>
    obtain ⟨hend, hborder⟩ := ih fun j hj => h j (List.mem_cons_of_mem _ hj)
    have hi := h i (by simp)
    constructor
    · simp [splitItems, hi, hend]
    · intro border rest hb
      simp [splitItems, hi, hborder border rest hb]

namespace Syntax

/-- What is assembled for a branch, in order. -/
def Branch.items (b : Branch) : List Item := b.anchor.toList.map (.instr ·.instr) ++ [.instr (.path b.path)]

/-- What is assembled for the branches of a bracket list, in order. -/
def listItems (first : Branch) (others : List Branch) : List Item :=
  first.items ++ others.flatMap fun b => .mark .separator :: b.items

/-- What is assembled for arguments that are complete, in order. -/
def argumentItems (ps : List Program) : List Item := ps.flatMap fun p => p.map .instr ++ [.mark .argument]

theorem Branch.items_instr (b : Branch) : ∀ i ∈ b.items, ∃ instr, i = .instr instr := by
  intro i hi
  simp only [items, List.mem_append, List.mem_map, List.mem_singleton] at hi
  rcases hi with ⟨anchor, -, rfl⟩ | rfl
  · exact ⟨_, rfl⟩
  · exact ⟨_, rfl⟩

theorem Branch.branchOf_items (b : Branch) : Assembly.branchOf b.items = .ok b.program := by
  obtain ⟨anchor, path⟩ := b
  cases anchor with
  | none => rfl
  | some anchor => cases anchor <;> rfl

theorem splitItems_listItems (first : Branch) (others : List Branch) :
    splitItems Item.isSeparator (listItems first others) = (first :: others).map Branch.items := by
  have hb : ∀ b : Branch, ∀ i ∈ b.items, Item.isSeparator i = false := by
    intro b i hi
    obtain ⟨instr, rfl⟩ := b.items_instr i hi
    rfl
  induction others generalizing first with
  | nil =>
    rw [listItems, List.flatMap_nil, List.append_nil]
    exact (splitItems_append (hb first)).1
  | cons b others ih =>
    have hrest : listItems first (b :: others) = first.items ++ .mark .separator :: listItems b others := by
      simp [listItems]
    rw [hrest, (splitItems_append (hb first)).2 _ _ rfl, ih]
    rfl

theorem splitItems_argumentItems (ps : List Program) :
    splitItems Item.isArgument (argumentItems ps) = ps.map (·.map .instr) ++ [[]] := by
  have hp : ∀ p : Program, ∀ i ∈ p.map Item.instr, Item.isArgument i = false := by
    intro p i hi
    obtain ⟨instr, -, rfl⟩ := List.mem_map.1 hi
    rfl
  induction ps with
  | nil => rfl
  | cons p ps ih =>
    have hrest : argumentItems (p :: ps) = p.map .instr ++ .mark .argument :: argumentItems ps := by
      simp [argumentItems]
    rw [hrest, (splitItems_append (hp p)).2 _ _ rfl, ih]
    rfl

end Syntax

namespace Assembly

/-- Goes on with a path. -/
def withPath (a : Assembly) (p : List Selector) : Assembly := { a with items := .instr (.path p) :: a.items }

/-- No path is on top that a selector would go on with. -/
def Clear (a : Assembly) : Prop := ∀ path, a.items.head? ≠ some (.instr (.path path))

/-- The inside of a bracket list, behind some branches. -/
def withList (a : Assembly) (first : Branch) (others : List Branch) : Assembly :=
  { a with items := (listItems first others).reverse ++ .mark .union :: a.items }

/-- The inside of a call, behind some arguments. -/
def withArguments (a : Assembly) (f : Function) (ps : List Program) : Assembly :=
  ⟨(argumentItems ps).reverse ++ .mark (.call f) :: a.items, .scope :: a.pending⟩

variable {a : Assembly}

@[simp] theorem pushPath_withPath (p steps : List Selector) :
    (a.withPath p).pushPath steps = a.withPath (p ++ steps) := rfl

@[simp] theorem pushSelector_withPath (p : List Selector) (s : Selector) :
    (a.withPath p).pushSelector s = a.withPath (p ++ [s]) := rfl

theorem clear_pushMark (a : Assembly) (m : Mark) : (a.pushMark m).Clear := nofun

theorem pushPath_of_clear (h : a.Clear) (steps : List Selector) : a.pushPath steps = a.withPath steps := by
  obtain ⟨items, pending⟩ := a
  cases items with
  | nil => rfl
  | cons i items =>
    cases i with
    | mark m => rfl
    | instr i =>
      cases i with
      | path path => exact absurd rfl (h path)
      | _ => rfl

theorem pushSelector_of_clear (h : a.Clear) (s : Selector) : a.pushSelector s = a.withPath [s] :=
  pushPath_of_clear h [s]

/-- The items of a bracket list are taken back to its mark. -/
theorem takeTo_withList (first : Branch) (others : List Branch) :
    (a.withList first others).takeTo Item.isUnion = .ok (.mark .union, listItems first others, a) := by
  have hunion : ∀ i ∈ (listItems first others).reverse, Item.isUnion i = false := by
    intro i hi
    simp only [listItems, List.mem_reverse, List.mem_append, List.mem_flatMap, List.mem_cons] at hi
    rcases hi with hi | ⟨b, -, rfl | hi⟩
    · obtain ⟨instr, rfl⟩ := first.items_instr i hi
      rfl
    · rfl
    · obtain ⟨instr, rfl⟩ := b.items_instr i hi
      rfl
  rw [withList, takeTo_append hunion rfl, List.reverse_reverse]

/-- Each branch of a bracket list is a program. -/
theorem branchOf_listItems (first : Branch) (others : List Branch) :
    (splitItems Item.isSeparator (listItems first others)).mapM branchOf =
      .ok ((first :: others).map Branch.program) := by
  have hbranches : ∀ bs : List Branch, (bs.map Branch.items).mapM branchOf = .ok (bs.map Branch.program) := by
    intro bs
    induction bs with
    | nil => rfl
    | cons b bs ih =>
      rw [List.map_cons, List.mapM_cons, b.branchOf_items, ih]
      rfl
  rw [splitItems_listItems, hbranches]

/-- A bracket list is closed. -/
theorem closeUnion_withList (first : Branch) (others : List Branch) :
    (a.withList first others).closeUnion = .ok (a.pushPath (bracketSelectors first others)) := by
  have htake := takeTo_withList (a := a) first others
  -- two items or more are no path that goes on
  have hmany : ∀ i j rest, listItems first others = i :: j :: rest →
      (a.withList first others).closeUnion =
        .ok (a.pushPath [.union ((first :: others).map Branch.program)]) := by
    intro i j rest hi
    have hsplit := branchOf_listItems first others
    rw [hi] at htake hsplit
    rw [closeUnion, htake]
    simp only [bind, Except.bind, hsplit]
    rfl
  obtain ⟨anchor, path⟩ := first
  cases anchor with
  | some anchor =>
    rw [hmany _ _ _ rfl]
    rfl
  | none =>
    cases others with
    | nil =>
      rw [closeUnion, htake]
      rfl
    | cons b others =>
      rw [hmany _ _ _ rfl]
      rfl

variable {env : Env}

theorem ofItems_post (t : Syntax.Tree env Atom) : Program.ofItems (t.post.map .instr) = .ok t.post :=
  Program.ofItems_map (t.height?_post 0)

/-- The expression in a filter or computed key is complete. -/
theorem closeScope_assembled (t : Syntax.Tree env Atom) (a : Assembly) (m : Mark) :
    (t.assembled (a.openScope m)).closeScope = .ok (t.settled (a.pushMark m)) := by
  rw [closeScope, settled_assembled t (firm_scope _)]
  rfl

/-- The items of an expression are taken back to the mark before it. -/
theorem takeTo_program {isMark : Item → Bool} (hi : ∀ i, isMark (.instr i) = false) {m : Mark}
    (hm : isMark (.mark m) = true) (p : Program) (a : Assembly) :
    takeTo isMark ⟨(p.map .instr).reverse ++ .mark m :: a.items, a.pending⟩ = .ok (.mark m, p.map .instr, a) := by
  have hitems : ∀ i ∈ (p.map Item.instr).reverse, isMark i = false := by
    intro i h
    obtain ⟨instr, -, rfl⟩ := List.mem_map.1 (List.mem_reverse.1 h)
    exact hi instr
  rw [takeTo_append hitems hm, List.reverse_reverse]

/-- A filter or computed key is closed behind its expression. -/
theorem closeExpression_assembled {isMark : Item → Bool} {selector : Program → Selector} {m : Mark}
    (hi : ∀ i, isMark (.instr i) = false) (hm : isMark (.mark m) = true) (t : Syntax.Tree env Atom) (a : Assembly) :
    (t.assembled (a.openScope m)).closeExpression isMark selector = .ok (a.pushSelector (selector t.post)) := by
  have htake : takeTo isMark (t.settled (a.pushMark m)) = .ok (.mark m, t.post.map .instr, a) :=
    takeTo_program hi hm t.post a
  exact closeExpression_of_taken (closeScope_assembled t a m) htake (ofItems_post t)

/-- An expression is closed with the parenthesis that it follows. -/
theorem closeGroup_assembled (t : Syntax.Tree env Atom) (a : Assembly) :
    (t.assembled a.openGroup).closeGroup = .ok ((Syntax.Tree.group t).assembled a) := by
  rw [closeGroup, settled_assembled t (firm_group _)]
  rfl

theorem hasOpenGroup_assembled (t : Syntax.Tree env Atom) (a : Assembly) :
    (t.assembled a).hasOpenGroup = a.hasOpenGroup := by
  rw [hasOpenGroup, hasOpenGroup, Syntax.Tree.assembled, hasOpenGroup_operators]

/-- An argument of a call is complete. -/
theorem closeArgument_assembled (t : Syntax.Tree env Atom) (f : Function) (ps : List Program) :
    (t.assembled (a.withArguments f ps)).closeArgument = .ok (a.withArguments f (ps ++ [t.post])) := by
  rw [closeArgument, settleScope, settled_assembled t (firm_scope _)]
  simp [Syntax.Tree.settled, withArguments, argumentItems, Except.map, pushMark]

/-- Behind an expression there is an instruction. -/
theorem head?_assembled (t : Syntax.Tree env Atom) (a : Assembly) :
    ∃ i, (t.assembled a).items.head? = some (.instr i) := by
  have hpost : ∀ u : Syntax.Tree env Atom, u.post ≠ [] := by
    intro u h
    have hh := u.height?_post 0
    rw [h] at hh
    cases hh
  have hout : t.out ≠ [] := by
    induction t with
    | operand b => cases b <;> nofun
    | group u _ => exact hpost u
    | prefixed op u ih => exact ih
    | likes r u _ => exact hpost u
    | binary op l r _ _ =>
      intro h
      exact hpost l (List.append_eq_nil_iff.1 h).1
  obtain ⟨i, is, h⟩ := List.exists_cons_of_ne_nil (List.reverse_ne_nil_iff.2 hout)
  refine ⟨i, ?_⟩
  rw [Syntax.Tree.assembled, ← List.map_reverse, h]
  rfl

/-- The last argument of a call is complete. -/
theorem closeLastArgument_assembled (t : Syntax.Tree env Atom) (f : Function) (ps : List Program) :
    (t.assembled (a.withArguments f ps)).closeLastArgument = .ok (a.withArguments f (ps ++ [t.post])) := by
  obtain ⟨i, hi⟩ := head?_assembled t (a.withArguments f ps)
  rw [closeLastArgument, hi, closeArgument_assembled]
  rfl

/-- Behind the name of a call and behind a complete argument nothing is left to complete. -/
theorem closeLastArgument_withArguments (f : Function) (ps : List Program) :
    (a.withArguments f ps).closeLastArgument = .ok (a.withArguments f ps) := by
  rcases List.eq_nil_or_concat ps with rfl | ⟨ps, p, rfl⟩
  · rfl
  · simp [closeLastArgument, withArguments, argumentItems, Item.isArgument]

theorem argumentsOf_argumentItems {ps : List Program} (hp : ∀ p ∈ ps, Program.height? 0 p = some 1) :
    argumentsOf (argumentItems ps) = .ok ps := by
  have hall : (ps.map (·.map Item.instr)).mapM Program.ofItems = .ok ps := by
    induction ps with
    | nil => rfl
    | cons p ps ih =>
      rw [List.map_cons, List.mapM_cons, Program.ofItems_map (hp p (by simp)),
        ih fun q hq => hp q (List.mem_cons_of_mem _ hq)]
      rfl
  rw [argumentsOf, splitItems_argumentItems]
  simpa using hall

/-- The items of a call are taken back to its mark. -/
theorem takeTo_withArguments (f : Function) (ps : List Program) :
    takeTo Item.isCall ⟨(argumentItems ps).reverse ++ .mark (.call f) :: a.items, a.pending⟩ =
      .ok (.mark (.call f), argumentItems ps, a) := by
  have hcall : ∀ i ∈ (argumentItems ps).reverse, Item.isCall i = false := by
    intro i hi
    simp only [argumentItems, List.mem_reverse, List.mem_flatMap, List.mem_append, List.mem_map,
      List.mem_singleton] at hi
    obtain ⟨p, -, ⟨instr, -, rfl⟩ | rfl⟩ := hi <;> rfl
  rw [takeTo_append hcall rfl, List.reverse_reverse]

/-- A call is closed behind its arguments. -/
theorem closeCall_withArguments {f : Function} {ps : List Program} (hf : f.accepts ps.length = true)
    (hp : ∀ p ∈ ps, Program.height? 0 p = some 1) :
    (a.withArguments f ps).closeCall = .ok (a.pushSelector (.call f ps)) := by
  have hscope : (a.withArguments f ps).closeScope =
      .ok ⟨(argumentItems ps).reverse ++ .mark (.call f) :: a.items, a.pending⟩ := rfl
  simp only [closeCall, closeLastArgument_withArguments, bind, Except.bind, hscope, takeTo_withArguments,
    argumentsOf_argumentItems hp, if_pos hf]

theorem height?_append_post {ps : List Program} (hp : ∀ p ∈ ps, Program.height? 0 p = some 1)
    (t : Syntax.Tree env Atom) : ∀ p ∈ ps ++ [t.post], Program.height? 0 p = some 1 := by
  intro p hm
  rcases List.mem_append.1 hm with hm | hm
  · exact hp p hm
  · rw [List.mem_singleton.1 hm]
    exact t.height?_post 0

/-- A call is closed behind the expression of its last argument. -/
theorem closeCall_assembled {f : Function} {ps : List Program} {t : Syntax.Tree env Atom}
    (hf : f.accepts (ps.length + 1) = true) (hp : ∀ p ∈ ps, Program.height? 0 p = some 1) :
    (t.assembled (a.withArguments f ps)).closeCall = .ok (a.pushSelector (.call f (ps ++ [t.post]))) := by
  rw [← closeCall_withArguments (by simpa using hf) (height?_append_post hp t), closeCall, closeCall,
    closeLastArgument_assembled, closeLastArgument_withArguments]

/-- The program of a query that is a path. -/
theorem finish_withPath {first : Instr} (hf : first.operands = 0) (steps : List Selector) :
    ((empty.push first).withPath steps).finish = .ok [first, .path steps] := by
  have hh : Program.height? 0 [first, .path steps] = some 1 := by
    have ho : (Instr.path steps).operands = 1 := rfl
    simp [Program.height?, hf, ho]
  exact Program.ofItems_map hh

end Assembly

end PathQuery
