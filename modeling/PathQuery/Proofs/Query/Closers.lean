import PathQuery.Proofs.Query.Contents

namespace PathQuery

open Syntax (argumentItems)

namespace Assembly

/-- A parenthesis is open if it is what waits behind the latest operators. -/
theorem hasOpenGroup_iff (a : Assembly) : a.hasOpenGroup = true ↔ ∃ rest, a.settled.pending = .group :: rest := by
  unfold hasOpenGroup settled
  induction a.items, a.pending using settleAll.induct with
  | case1 items op pending ih => exact ih
  | case2 items pending h =>
    rw [settleAll]
    · cases pending with
      | nil => simp [hasOpenGroup.go]
      | cons top pending =>
        cases top with
        | operator op => exact absurd rfl (h op pending)
        | group => simp [hasOpenGroup.go]
        | scope => simp [hasOpenGroup.go]
    · exact h

variable {a b : Assembly}

theorem settled_of_open (h : a.hasOpenGroup = true) : ∃ items rest, a.settled = ⟨items, .group :: rest⟩ := by
  obtain ⟨rest, hr⟩ := (hasOpenGroup_iff a).1 h
  exact ⟨_, rest, congrArg (Assembly.mk _) hr⟩

theorem closeGroup_of_open (h : a.hasOpenGroup = true) : ∃ b, a.closeGroup = .ok b := by
  obtain ⟨items, rest, hs⟩ := settled_of_open h
  exact ⟨⟨items, rest⟩, by rw [closeGroup, hs]⟩

theorem closeScope_of_open (h : a.hasOpenGroup = true) : a.closeScope = .error .unbalancedParenthesis := by
  obtain ⟨items, rest, hs⟩ := settled_of_open h
  rw [closeScope, hs]

theorem closeExpression_of_open {isMark : Item → Bool} {selector : Program → Selector} (h : a.hasOpenGroup = true) :
    a.closeExpression isMark selector = .error .unbalancedParenthesis := by
  rw [closeExpression, closeScope_of_open h]
  rfl

theorem settleScope_of_open (h : a.hasOpenGroup = true) : a.settleScope = .error .unbalancedParenthesis := by
  obtain ⟨items, rest, hs⟩ := settled_of_open h
  rw [settleScope, hs]

end Assembly

/-- How an act that closes something can end. -/
inductive Closing (a : Assembly) : Act → Except SyntaxFault Assembly → Prop
  | group {b : Assembly} (ho : a.hasOpenGroup = true) (hb : a.closeGroup = .ok b) : Closing a .closeGroup (.ok b)
  | list {m : Item} {items : List Item} {b c : Assembly} {branches : List Program}
      (ht : a.takeTo Item.isUnion = .ok (m, items, b))
      (hp : (splitItems Item.isSeparator items).mapM Assembly.branchOf = .ok branches) (hc : a.closeUnion = .ok c) :
      Closing a .closeUnion (.ok c)
  | filter {m : Item} {items : List Item} {b c : Assembly} {p : Program} (ho : a.hasOpenGroup = false)
      (hs : a.closeScope = .ok b) (ht : b.takeTo Item.isFilter = .ok (m, items, c))
      (hp : Program.ofItems items = .ok p) : Closing a .closeFilter (.ok (c.pushSelector (.filter p)))
  | openFilter (ho : a.hasOpenGroup = true) : Closing a .closeFilter (.error .unbalancedParenthesis)
  | computed {m : Item} {items : List Item} {b c : Assembly} {p : Program} (ho : a.hasOpenGroup = false)
      (hs : a.closeScope = .ok b) (ht : b.takeTo Item.isComputed = .ok (m, items, c))
      (hp : Program.ofItems items = .ok p) : Closing a .closeComputed (.ok (c.pushSelector (.computed p)))
  | openComputed (ho : a.hasOpenGroup = true) : Closing a .closeComputed (.error .unbalancedParenthesis)
  | argument {b : Assembly} (ho : a.hasOpenGroup = false) (hs : a.settleScope = .ok b) :
      Closing a .closeArgument (.ok (b.pushMark .argument))
  | openArgument (ho : a.hasOpenGroup = true) : Closing a .closeArgument (.error .unbalancedParenthesis)
  | call {items : List Item} {b c d : Assembly} {f : Function} {ps : List Program}
      (hl : a.closeLastArgument = .ok b) (hs : b.closeScope = .ok c)
      (ht : c.takeTo Item.isCall = .ok (.mark (.call f), items, d)) (hp : Assembly.argumentsOf items = .ok ps)
      (hf : f.accepts ps.length = true) : Closing a .closeCall (.ok (d.pushSelector (.call f ps)))
  | arity {items : List Item} {b c d : Assembly} {f : Function} {ps : List Program}
      (hl : a.closeLastArgument = .ok b) (hs : b.closeScope = .ok c)
      (ht : c.takeTo Item.isCall = .ok (.mark (.call f), items, d)) (hp : Assembly.argumentsOf items = .ok ps)
      (hf : f.accepts ps.length = false) : Closing a .closeCall (.error .wrongArity)

variable {fs : List Frame} {frame : Frame} {a b : Assembly}

/-- The act gives what is described. -/
theorem Closing.perform {act : Act} {result : Except SyntaxFault Assembly} (h : Closing a act result) (k : Nat) :
    act.perform k a = result := by
  cases h with
  | group ho hb => exact hb
  | list ht hp hc => exact hc
  | filter ho hs ht hp => exact Assembly.closeExpression_of_taken hs ht hp
  | openFilter ho | openComputed ho => exact Assembly.closeExpression_of_open ho
  | computed ho hs ht hp => exact Assembly.closeExpression_of_taken hs ht hp
  | argument ho hs =>
    show a.closeArgument = _
    rw [Assembly.closeArgument, hs]
    rfl
  | openArgument ho =>
    show a.closeArgument = _
    rw [Assembly.closeArgument, Assembly.settleScope_of_open ho]
    rfl
  | call hl hs ht hp hf =>
    show a.closeCall = _
    simp only [Assembly.closeCall, hl, hs, ht, hp, hf, bind, Except.bind, if_true]
  | arity hl hs ht hp hf =>
    show a.closeCall = _
    simp only [Assembly.closeCall, hl, hs, ht, hp, hf, bind, Except.bind]
    rfl

/-- An act can close what is open, and if it does not fail, a selector has gone to what is around. -/
def Closes (fs : List Frame) (a : Assembly) (act : Act) : Prop :=
  ∃ result, Closing a act result ∧ ∀ b, result = .ok b → Inside (Complete fs.head?) fs b

namespace Inside

/-- Behind an operand there is an instruction. -/
theorem head?_instr (hf : frame ≠ .list) (h : Inside (Complete (some frame)) (frame :: fs) a) :
    ∃ i, a.items.head? = some (.instr i) := by
  obtain ⟨b, items, pending, hb, hc, rfl⟩ := h
  obtain ⟨hy, -⟩ := hc.underway hf
  generalize hn : waiting pending + 1 = n at hy
  cases hy with
  | nil => omega
  | instr i _ _ => exact ⟨i, rfl⟩

/-- Where nothing has been read, no parenthesis is open. -/
theorem hasOpenGroup_bare (hf : frame ≠ .list) (h : Inside Bare (frame :: fs) a) : a.hasOpenGroup = false := by
  obtain ⟨b, items, pending, hb, ⟨rfl, rfl⟩, rfl⟩ := h
  obtain ⟨below, hp⟩ := hb.pending hf
  rw [Assembly.hasOpenGroup, Assembly.under, List.nil_append, hp]
  rfl

theorem settled (hf : frame ≠ .list) (h : Inside (Complete (some frame)) (frame :: fs) a) :
    ∃ b items rest, Opened (frame :: fs) b ∧ a.settled = b.under items rest ∧ Underway 1 items rest ∧
      (rest = [] ∨ ∃ others, rest = .group :: others) := by
  obtain ⟨b, items, pending, hb, hc, rfl⟩ := h
  obtain ⟨items', rest, he, hr, hg⟩ := (hc.underway hf).settleAll_append (hb.firm hf) b.items
  exact ⟨b, items', rest, hb, he, hr, hg⟩

/-- A parenthesis that is open in an expression is closed. -/
theorem closeGroup (hf : ∃ frame outer, fs = frame :: outer ∧ frame ≠ .list) (h : Inside (Complete fs.head?) fs a)
    (hb : a.closeGroup = .ok b) : Inside (Complete fs.head?) fs b := by
  obtain ⟨frame, outer, rfl, hne⟩ := hf
  obtain ⟨c, items, rest, hc, hs, hu, hg⟩ := settled hne h
  rw [Assembly.closeGroup, hs] at hb
  obtain rfl | ⟨others, rfl⟩ := hg
  · obtain ⟨below, hp⟩ := hc.pending hne
    rw [Assembly.under, hp] at hb
    cases hb
  · cases hb
    exact ⟨c, items, others, hc, .expression hne hu.ungroup, rfl⟩

/-- Without a parenthesis that is open, the expression is a program behind the mark of its construct. -/
theorem whole (hf : frame ≠ .list) (h : Inside (Complete (some frame)) (frame :: fs) a) (ho : a.hasOpenGroup = false) :
    ∃ outer b, ∃ p : Program, Inside (Started fs.head?) fs outer ∧ frame.Begins outer b ∧ p.height? 0 = some 1 ∧
      a.settled = b.under (p.map .instr).reverse [] := by
  obtain ⟨b, items, rest, hb, hs, hu, hg⟩ := settled hf h
  obtain rfl | ⟨others, rfl⟩ := hg
  · obtain ⟨p, rfl, hp⟩ := hu.yields.program
    cases hb with
    | @construct _ _ c _ items' pending' hc hc' hb => exact ⟨_, b, p, ⟨c, items', pending', hc, hc', rfl⟩, hb, hp, hs⟩
  · have hopen : a.hasOpenGroup = true := (Assembly.hasOpenGroup_iff a).2 ⟨others ++ b.pending, by rw [hs]; rfl⟩
    rw [ho] at hopen
    cases hopen

/-- The expression of a filter or computed key is taken from behind its mark, and is a program; a parenthesis in it that
is open is an error. -/
theorem closeExpression {act : Act} {isMark : Item → Bool} {x : Program → Selector} (hf : frame ≠ .list) {m : Mark}
    (hb : ∀ {outer b}, frame.Begins outer b → b = outer.openScope m) (hi : ∀ i, isMark (.instr i) = false)
    (hm : isMark (.mark m) = true)
    (hopen : a.hasOpenGroup = true → Closing a act (.error .unbalancedParenthesis))
    (hmade : ∀ {m items b c p}, a.hasOpenGroup = false → a.closeScope = .ok b → b.takeTo isMark = .ok (m, items, c) →
      Program.ofItems items = .ok p → Closing a act (.ok (c.pushSelector (x p))))
    (h : Inside (Complete (some frame)) (frame :: fs) a) : Closes fs a act := by
  cases ho : a.hasOpenGroup with
  | true =>
    refine ⟨_, hopen ho, ?_⟩
    rintro b ⟨⟩
  | false =>
    obtain ⟨outer, b, p, hout, hbegins, hp, hs⟩ := whole hf h ho
    obtain rfl := hb hbegins
    have hscope : a.closeScope = .ok ⟨(p.map .instr).reverse ++ .mark m :: outer.items, outer.pending⟩ := by
      rw [Assembly.closeScope, hs]
      rfl
    refine ⟨_, hmade ho hscope (Assembly.takeTo_program hi hm p outer) (Program.ofItems_map hp), ?_⟩
    rintro d ⟨⟩
    exact hout.pushSelector _

theorem closeUnion (h : Inside (Complete (some .list)) (.list :: fs) a) : Closes fs a .closeUnion := by
  obtain ⟨outer, first, others, ho, rfl⟩ := h.branches
  have hc := Assembly.closeUnion_withList (a := outer) first others
  refine ⟨_, .list (Assembly.takeTo_withList first others) (Assembly.branchOf_listItems first others) hc, ?_⟩
  rintro b ⟨⟩
  exact ho.pushPath _

theorem closeFilter (h : Inside (Complete (some .filter)) (.filter :: fs) a) : Closes fs a .closeFilter := by
  refine closeExpression (m := .filter) (by simp) ?_ (fun _ => rfl) rfl .openFilter .filter h
  rintro outer b ⟨⟩
  rfl

theorem closeComputed (h : Inside (Complete (some .computed)) (.computed :: fs) a) : Closes fs a .closeComputed := by
  refine closeExpression (m := .computed) (by simp) ?_ (fun _ => rfl) rfl .openComputed .computed h
  rintro outer b ⟨⟩
  rfl

/-- Without a parenthesis that is open, an argument is added to those before it. -/
theorem settleScope (h : Inside (Complete (some .call)) (.call :: fs) a) (ho : a.hasOpenGroup = false) :
    ∃ b outer f, ∃ ps : List Program, a.settleScope = .ok b ∧ b.pushMark .argument = outer.withArguments f ps ∧
      (∀ p ∈ ps, p.height? 0 = some 1) ∧ Inside (Started fs.head?) fs outer := by
  obtain ⟨outer, b, p, hout, hbegins, hp, hs⟩ := whole (by simp) h ho
  cases hbegins with
  | @call _ f ps hps =>
    refine ⟨_, outer, f, ps ++ [p], by rw [Assembly.settleScope, hs]; rfl, ?_, ?_, hout⟩
    · simp [Assembly.pushMark, Assembly.withArguments, argumentItems]
    · intro q hq
      rcases List.mem_append.1 hq with hq | hq
      · exact hps q hq
      · rw [List.mem_singleton.1 hq]
        exact hp

/-- Behind an argument, its end is put down or a parenthesis is open. -/
theorem closeArgument (h : Inside (Complete (some .call)) (.call :: fs) a) :
    ∃ result, Closing a .closeArgument result ∧ ∀ b, result = .ok b → Inside (Fresh (some .call)) (.call :: fs) b := by
  cases ho : a.hasOpenGroup with
  | true =>
    refine ⟨_, .openArgument ho, ?_⟩
    rintro b ⟨⟩
  | false =>
    obtain ⟨b, outer, f, ps, hs, hb, hps, hout⟩ := h.settleScope ho
    refine ⟨_, .argument ho hs, ?_⟩
    rintro c ⟨⟩
    rw [hb]
    exact (hout.construct (.call outer f hps)).fresh

/-- A call is closed behind its last argument, or behind its parenthesis if it has none. -/
theorem closeCall (h : Inside Bare (.call :: fs) a ∨
      Inside (Complete (some .call)) (.call :: fs) a ∧ a.hasOpenGroup = false) : Closes fs a .closeCall := by
  have hlast : ∃ outer f, ∃ ps : List Program, a.closeLastArgument = .ok (outer.withArguments f ps) ∧
      (∀ p ∈ ps, p.height? 0 = some 1) ∧ Inside (Started fs.head?) fs outer := by
    obtain ⟨b, items, pending, hb, ⟨rfl, rfl⟩, rfl⟩ | ⟨h, ho⟩ := h
    · cases hb with
      | @construct _ _ c _ items pending hc hs hb =>
        cases hb with
        | @call _ f ps hps =>
          have hout : Inside (Started fs.head?) fs (c.under items pending) := ⟨c, items, pending, hc, hs, rfl⟩
          exact ⟨_, f, ps, Assembly.closeLastArgument_withArguments f ps, hps, hout⟩
    · obtain ⟨i, hi⟩ := head?_instr (by simp) h
      obtain ⟨b, outer, f, ps, hs, hb, hps, hout⟩ := h.settleScope ho
      refine ⟨outer, f, ps, ?_, hps, hout⟩
      rw [Assembly.closeLastArgument, hi, Assembly.closeArgument, hs, ← hb]
      rfl
  obtain ⟨outer, f, ps, hl, hps, hout⟩ := hlast
  have hs : (outer.withArguments f ps).closeScope =
      .ok ⟨(argumentItems ps).reverse ++ .mark (.call f) :: outer.items, outer.pending⟩ := rfl
  have ht := Assembly.takeTo_withArguments (a := outer) f ps
  have hp := Assembly.argumentsOf_argumentItems hps
  cases hf : f.accepts ps.length with
  | true =>
    refine ⟨_, .call hl hs ht hp hf, ?_⟩
    rintro b ⟨⟩
    exact hout.pushSelector _
  | false =>
    refine ⟨_, .arity hl hs ht hp hf, ?_⟩
    rintro b ⟨⟩

/-- The program of a query is finished behind its path. -/
theorem finish (h : Inside (Complete none) [] a) : ∃ p, a.finish = .ok p := by
  obtain ⟨b, items, pending, hb, hc, rfl⟩ := h
  cases hb
  cases hc with
  | query anchor path => exact ⟨_, @Assembly.finish_withPath anchor.instr (by cases anchor <;> rfl) path⟩

end Inside

end PathQuery
