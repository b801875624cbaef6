import PathQuery.Proofs.Query.Elements

namespace PathQuery

open Syntax (Branch firm_group firm_nil step_closeGroup)

variable {env : Env}

namespace Assembly

variable {a b : Assembly} {f : Nat → Nat}

/-- The assembly behind a program of one value that is complete. -/
def withProgram (a : Assembly) (p : Program) : Assembly := { a with items := (p.map .instr).reverse ++ a.items }

theorem items_renumber (p : Program) :
    (p.map Item.instr).reverse.map (Item.renumber f) = ((renumberProgram f p).map .instr).reverse := by
  simp [renumberProgram_eq, Item.renumber]

/-- In a group an expression is closed as the program that it is by itself. -/
theorem closeGroup_of_finish {p : Program} (h : b.finish = .ok p) (a : Assembly) (f : Nat → Nat) :
    (a.openGroup.atop f b).closeGroup = .ok (a.withProgram (renumberProgram f p)) := by
  unfold finish at h
  split at h
  · next items hs =>
    have hitems : items = (p.map .instr).reverse := by
      rw [← (Program.ofItems_cases h).1, List.reverse_reverse]
    rw [closeGroup, settled_atop (firm_group _), hs, hitems, withProgram, ← items_renumber]
    rfl
  · cases h

/-- A group of two operands, or one, is closed behind its only operator. -/
theorem closeGroup_withProgram (a : Assembly) (p q : Program) (op : Operator) :
    (((a.openGroup.withProgram p).pushOperator op).withProgram q).closeGroup =
      .ok (a.withProgram (p ++ q ++ [op.instr])) := by
  have hclose : (((a.openGroup.withProgram p).pushOperator op).withProgram q).closeGroup =
      .ok ⟨.instr op.instr :: ((q.map .instr).reverse ++ ((p.map .instr).reverse ++ a.items)), a.pending⟩ := rfl
  rw [hclose, withProgram]
  simp

/-- A filter is closed behind the program of its test. -/
theorem closeFilter_withProgram {p : Program} (hp : p.height? 0 = some 1) (a : Assembly) :
    ((a.openScope .filter).withProgram p).closeFilter = .ok (a.pushSelector (.filter p)) := by
  have htake : takeTo Item.isFilter ⟨(p.map .instr).reverse ++ .mark .filter :: a.items, a.pending⟩ =
      .ok (.mark .filter, p.map .instr, a) := takeTo_program (fun _ => rfl) rfl p a
  have hscope : ((a.openScope .filter).withProgram p).closeScope =
      .ok ⟨(p.map .instr).reverse ++ .mark .filter :: a.items, a.pending⟩ := rfl
  exact closeExpression_of_taken hscope htake (Program.ofItems_map hp)

end Assembly

open Assembly (closeGroup_of_finish)

/-- The reader takes a text for an expression: from where an operand comes next it is read up to the parenthesis behind
it, and if nothing more follows this is its program, with some occurrences of the root. -/
def ReadsExpression (env : Env) (text : String) (p : Program) (roots : Nat) : Prop :=
  ∃ position a, Machine.Reaches env
    ⟨text.toList ++ [')'], .start, [.operand, .operator, .filterEnd, .elementEnd, .path], .empty, 0⟩
    ⟨[')'], position, [.operator, .filterEnd, .elementEnd, .path], a, roots⟩ ∧ a.finish = .ok p

theorem ReadsExpression.height {text : String} {p : Program} {roots : Nat} (h : ReadsExpression env text p roots) :
    p.height? 0 = some 1 := by
  obtain ⟨-, a, -, hfinish⟩ := h
  obtain ⟨ops, -, hitems⟩ := Assembly.finish_cases hfinish
  exact (Program.ofItems_cases hitems).2

/-- Whatever is an expression by its syntax is read as one, in each of its texts. -/
theorem Syntax.readsExpression (e : Syntax.Phrase env (Syntax.Primary env)) {text : String}
    (h : Syntax.IsTextOf (Syntax.phraseTokens e) text) :
    ReadsExpression env text (Syntax.phraseAtoms 0 e).tree.post (Syntax.phraseRoots e) := by
  obtain ⟨blanks, body, hb, hw, htext⟩ := h
  have hleads : Syntax.Leads env
      ⟨Syntax.phraseTokens e ++ [.char ')'], [.operand, .operator, .filterEnd, .elementEnd, .path], .empty, 0⟩
      ⟨[.char ')'], [.operator, .filterEnd, .elementEnd, .path], (Syntax.phraseAtoms 0 e).tree.assembled .empty,
        0 + Syntax.phraseRoots e⟩ :=
    Syntax.phraseReads e (.close (.inl rfl) []) Syntax.accepts_id (Syntax.prepared_id _) firm_nil
  obtain ⟨later, hreach⟩ := hleads.reaches_last rfl rfl hb hw .start
  rw [← htext, Nat.zero_add] at hreach
  refine ⟨later, _, hreach, ?_⟩
  rw [Assembly.finish, Syntax.settled_assembled _ firm_nil]
  simp only [Syntax.Tree.settled, Assembly.empty, List.append_nil, List.reverse_reverse]
  exact Assembly.ofItems_post _

/-- Wherever an operand of a test comes next, a text is read to its end as one, whatever is behind it. -/
def ReadsOperand (env : Env) (text : String) (p : Program) (roots : Nat) : Prop :=
  ∀ more position a k, ∃ later, Machine.Reaches env
    ⟨text.toList ++ more, position, [.operand, .operator, .filterEnd, .elementEnd, .path], a, k⟩
    ⟨more, later, [.operator, .filterEnd, .elementEnd, .path], a.withProgram (renumberProgram (k + ·) p), k + roots⟩

namespace Machine

variable {a b : Assembly} {below : List Mode} {more : List Char} {position : Text.Position} {k : Nat}

theorem reaches_closeGroup (h : a.closeGroup = .ok b) :
    Reaches env ⟨')' :: more, position, .operator :: below, a, k⟩
      ⟨more, position.after ')', .operator :: below, b, k⟩ :=
  .step (step_closeGroup h more position) (.refl _)

end Machine

/-- An expression in parentheses is an operand. -/
theorem ReadsExpression.group {text : String} {p : Program} {roots : Nat} (h : ReadsExpression env text p roots) :
    ReadsOperand env ("(" ++ text ++ ")") p roots := by
  intro more position a k
  obtain ⟨place, b, hreads, hfinish⟩ := h
  have hatop : Machine.Atop (k + ·) a.openGroup more
      ⟨text.toList ++ [')'], .start, [.operand, .operator, .filterEnd, .elementEnd, .path], .empty, 0⟩
      ⟨text.toList ++ ')' :: more, position.after '(', [.operand, .operator, .filterEnd, .elementEnd, .path],
        a.openGroup, k⟩ := ⟨by simp, rfl, rfl, rfl⟩
  obtain ⟨⟨rest, place', modes, assembly, roots'⟩, hreach, hrest, hmodes, hassembly, hroots⟩ :=
    hreads.atop (f := (k + ·)) (by simp) (by simp) (fun _ => rfl) (firm_group _) (.inl (.inr ⟨rfl, _, rfl⟩)) hatop
  dsimp only at hrest hmodes hassembly hroots
  subst hrest hmodes hassembly hroots
  refine ⟨place'.after ')', ?_⟩
  have htext : ("(" ++ text ++ ")").toList ++ more = '(' :: (text.toList ++ ')' :: more) := by simp
  rw [htext]
  exact .step rfl (hreach.trans (Machine.reaches_closeGroup (closeGroup_of_finish hfinish a _)))

/-- How `and` and `or` are written between two groups. -/
inductive Connective : BinaryOp → String → Prop
  | and : Connective .and " && "
  | or : Connective .or " || "

theorem Connective.reaches {op : BinaryOp} {text : String} (h : Connective op text) (more : List Char)
    (position : Text.Position) (below : List Mode) (a : Assembly) (k : Nat) : ∃ later,
      Machine.Reaches env ⟨text.toList ++ more, position, .operator :: below, a, k⟩
        ⟨more, later, .operand :: .operator :: below, a.pushOperator (.binary op), k⟩ := by
  cases h with
  | and => exact ⟨_, .step rfl (.step rfl (.step rfl (.step rfl (.refl _))))⟩
  | or => exact ⟨_, .step rfl (.step rfl (.step rfl (.step rfl (.refl _))))⟩

namespace ReadsOperand

variable {text other : String} {p q : Program} {roots roots' : Nat}

theorem not (h : ReadsOperand env text p roots) :
    ReadsOperand env ("(!" ++ text ++ ")") (p ++ [.unary .not]) roots := by
  intro more position a k
  obtain ⟨later, hreach⟩ := h (')' :: more) ((position.after '(').after '!')
    (a.openGroup.pushOperator (.unary .not)) k
  refine ⟨later.after ')', ?_⟩
  have htext : ("(!" ++ text ++ ")").toList ++ more = '(' :: '!' :: (text.toList ++ ')' :: more) := by simp
  have hclose : ((a.openGroup.pushOperator (.unary .not)).withProgram (renumberProgram (k + ·) p)).closeGroup =
      .ok (a.withProgram (renumberProgram (k + ·) (p ++ [.unary .not]))) := by
    rw [renumberProgram_append]
    exact Assembly.closeGroup_withProgram a [] _ _
  rw [htext]
  exact .step rfl (.step rfl (hreach.trans (Machine.reaches_closeGroup hclose)))

theorem connective {op : BinaryOp} {between : String} (hop : Connective op between)
    (h : ReadsOperand env text p roots) (h' : ReadsOperand env other q roots') :
    ReadsOperand env ("(" ++ text ++ between ++ other ++ ")") (p ++ renumberProgram (roots + ·) q ++ [.binary op])
      (roots + roots') := by
  intro more position a k
  obtain ⟨later, hreach⟩ := h (between.toList ++ (other.toList ++ ')' :: more)) (position.after '(') a.openGroup k
  obtain ⟨later', hop'⟩ := @Connective.reaches env _ _ hop (other.toList ++ ')' :: more) later
    [.filterEnd, .elementEnd, .path] (a.openGroup.withProgram (renumberProgram (k + ·) p)) (k + roots)
  obtain ⟨last, hreach'⟩ := h' (')' :: more) later'
    ((a.openGroup.withProgram (renumberProgram (k + ·) p)).pushOperator (.binary op)) (k + roots)
  refine ⟨last.after ')', ?_⟩
  have htext : ("(" ++ text ++ between ++ other ++ ")").toList ++ more =
      '(' :: (text.toList ++ (between.toList ++ (other.toList ++ ')' :: more))) := by simp
  have hclose : (((a.openGroup.withProgram (renumberProgram (k + ·) p)).pushOperator (.binary op)).withProgram
      (renumberProgram (k + roots + ·) q)).closeGroup = .ok (a.withProgram
        (renumberProgram (k + ·) (p ++ renumberProgram (roots + ·) q ++ [.binary op]))) := by
    have hadd : (fun i => k + (roots + i)) = (k + roots + ·) := funext fun i => (Nat.add_assoc k roots i).symm
    rw [renumberProgram_append, renumberProgram_append, renumberProgram_renumberProgram, hadd]
    exact Assembly.closeGroup_withProgram a _ _ _
  rw [htext, ← Nat.add_assoc]
  exact .step rfl (hreach.trans (hop'.trans (hreach'.trans (Machine.reaches_closeGroup hclose))))

/-- A test is an element of a bracket list that is a filter. -/
theorem readsElement (h : ReadsOperand env text p roots) (hp : p.height? 0 = some 1) :
    ReadsElement env ("?" ++ text) ⟨none, [.filter (renumberProgram (0 + ·) p)]⟩ roots := by
  obtain ⟨later, hreach⟩ := h [']'] (Text.Position.start.after '?') (Assembly.empty.openScope .filter) 0
  have hclose : ((Assembly.empty.openScope .filter).withProgram (renumberProgram (0 + ·) p)).closeFilter =
      .ok (Assembly.empty.pushSelector (.filter (renumberProgram (0 + ·) p))) :=
    Assembly.closeFilter_withProgram (by rw [Program.height?_renumber, hp]) _
  have hend : Machine.Reaches env
      ⟨[']'], later, [.operator, .filterEnd, .elementEnd, .path],
        (Assembly.empty.openScope .filter).withProgram (renumberProgram (0 + ·) p), 0 + roots⟩
      ⟨[']'], later, [.elementEnd, .path], Assembly.empty.pushSelector (.filter (renumberProgram (0 + ·) p)),
        roots⟩ := by
    refine .step rfl (.step ?_ (.refl _))
    show (Machine.attempt ⟨[']'], later, _, _, 0 + roots⟩ Assembly.closeFilter).map _ = _
    rw [Machine.attempt_of_ok hclose, Nat.zero_add]
    rfl
  have htext : ("?" ++ text).toList ++ [']'] = '?' :: (text.toList ++ [']']) := by simp
  refine ⟨later, ?_⟩
  rw [htext]
  exact .step rfl (hreach.trans hend)

end ReadsOperand

end PathQuery
