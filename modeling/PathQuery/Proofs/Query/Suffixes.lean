import PathQuery.Proofs.Query.Appended
import PathQuery.Proofs.Query.Compiling
import PathQuery.Proofs.Query.Standalone
import PathQuery.Proofs.Query.Waiting
import PathQuery.Standard

namespace PathQuery

open Machine (ReadsAlone Reaches)
open Syntax (Blanks Comes Firm PatternText Stage firm_group firm_nil firm_scope)

variable {env : Env}

/-- A text that is read alone as an operand, with the operators of its own before it and behind it: no binary operator
waits where it ends. -/
structure IsOperand (env : Env) (text : String) (b : Assembly) (roots : Nat) : Prop where
  starts : ∀ c ∈ text.toList.head?, Text.isSpace c = false
  reads : ReadsAlone env text.toList [.operand, .operator] .empty b 0 roots
  unary : ∃ ops : List UnaryOp, b.pending = (ops.map .unary).map .operator

/-- The text of a path that is read alone behind the assembly `a`. No operator waits where it ends. -/
structure IsSuffix (env : Env) (text : String) (a b : Assembly) (i j : Nat) : Prop where
  starts : GoesOn text.toList
  reads : ReadsAlone env text.toList [.operator] a b i j
  complete : b.pending = []

/-- A match with a regular expression, as it is written behind its operand. -/
def IsMatch (r : PatternText env) (text : String) : Prop :=
  ∃ before behind, Blanks before ∧ Blanks behind ∧ text.toList = '=' :: '~' :: (before ++ (r.token.text ++ behind))

/-- Behind a text the reader is where an expression starts, or a group in one. -/
def OpensExpression (env : Env) (text : String) : Prop :=
  ∃ below base k, Firm base.pending ∧ ∀ c more, Text.isSpace c = false → c ≠ ')' →
    Comes env ⟨text.toList ++ c :: more, [.start], .empty, 0⟩ ⟨c :: more, .operand :: .operator :: below, base, k⟩

section places

variable {text : String} {below : List Mode} {a : Assembly} {k : Nat}

theorem opensExpression_filter
    (h : ∀ more, Comes env ⟨text.toList ++ more, [.start], .empty, 0⟩ ⟨more, .element :: below, a, k⟩) :
    OpensExpression env (text ++ "?") := by
  refine ⟨.filterEnd :: below, a.openScope .filter, k, firm_scope _, ?_⟩
  intro c more _ _
  have hopen : Comes env ⟨'?' :: c :: more, .element :: below, a, k⟩
      ⟨c :: more, .operand :: .operator :: .filterEnd :: below, a.openScope .filter, k⟩ :=
    .char fun position => ⟨position.after '?', rfl⟩
  simpa using (h _).trans hopen

/-- A computed key starts with a group. -/
theorem opensExpression_computed
    (h : ∀ more, Comes env ⟨text.toList ++ more, [.start], .empty, 0⟩ ⟨more, .element :: below, a, k⟩) :
    OpensExpression env (text ++ "(") := by
  refine ⟨.computedEnd :: below, (a.openScope .computed).openGroup, k, firm_group _, ?_⟩
  intro c more _ _
  have hopen : Comes env ⟨'(' :: c :: more, .element :: below, a, k⟩
      ⟨'(' :: c :: more, .operand :: .operator :: .computedEnd :: below, a.openScope .computed, k⟩ :=
    .char fun position => ⟨position, rfl⟩
  have hgroup : Comes env ⟨'(' :: c :: more, .operand :: .operator :: .computedEnd :: below, a.openScope .computed, k⟩
      ⟨c :: more, .operand :: .operator :: .computedEnd :: below, (a.openScope .computed).openGroup, k⟩ :=
    .char fun position => ⟨position.after '(', rfl⟩
  simpa using (h _).trans (hopen.trans hgroup)

theorem opensExpression_argument (ha : Firm a.pending)
    (h : ∀ more, Comes env ⟨text.toList ++ more, [.start], .empty, 0⟩ ⟨more, .firstArgument :: below, a, k⟩) :
    OpensExpression env text := by
  refine ⟨below, a, k, ha, ?_⟩
  intro c more hblank hparenthesis
  refine (h _).trans (.char fun position => ⟨position, ?_⟩)
  simp [Machine.step, Machine.stepIn, Machine.readFirstArgument, hblank, hparenthesis, Machine.goto]

end places

section matching

variable {text : String} {a : Assembly} {k : Nat} {below : List Mode} {more : List Char} {r : PatternText env}

theorem IsMatch.comes (h : IsMatch r text) (hm : ∀ c ∈ more.head?, c ≠ 'i') :
    Comes env ⟨text.toList ++ more, .operator :: below, a, k⟩
      ⟨more, .operator :: below, a.pushOperator r.operator, k⟩ := by
  obtain ⟨before, behind, hbefore, hbehind, htext⟩ := h
  have hsign : Comes env ⟨'=' :: '~' :: (before ++ (r.token.text ++ (behind ++ more))), .operator :: below, a, k⟩
      ⟨before ++ (r.token.text ++ (behind ++ more)), .patternStart :: .operator :: below, a, k⟩ :=
    Comes.trans (.char fun position => ⟨position.after '=', rfl⟩) (.char fun position => ⟨position.after '~', rfl⟩)
  have hflag : ∀ c ∈ (behind ++ more).head?, c ≠ 'i' := by
    cases behind with
    | nil => exact hm
    | cons b behind =>
      rintro c hc rfl
      obtain rfl : b = 'i' := by simpa using hc
      have hblank := hbehind 'i' (by simp)
      cases hblank
  have hpattern := hsign.trans ((Syntax.comes_blanks rfl hbefore).trans (Syntax.comes_patternText r hflag))
  have hall := hpattern.trans (Syntax.comes_blanks rfl hbehind)
  rw [htext]
  simpa [PatternText.operator] using hall

end matching

namespace IsOperand

variable {text : String} {b base : Assembly} {i k : Nat} {c : Char} {below : List Mode} {more : List Char}

theorem settled (h : IsOperand env text b i) : ∃ items, b.settled = ⟨items, []⟩ ∧
    ∀ r : PatternText env, b.pushOperator r.operator = b.settled.holding r.operator := by
  obtain ⟨ops, hp⟩ := h.unary
  have hall : ∀ (ops : List Operator) items, Assembly.settleAll items (ops.map .operator) =
      ⟨Assembly.settledItems ops ++ items, []⟩ := by
    intro ops
    induction ops with
    | nil => exact fun items => rfl
    | cons op ops ih =>
      intro items
      rw [List.map_cons, Assembly.settleAll, ih]
      simp
  have hsettled : b.settled = ⟨Assembly.settledItems (ops.map .unary) ++ b.items, []⟩ := by
    rw [Assembly.settled, hp, hall]
  refine ⟨_, hsettled, ?_⟩
  intro r
  -- every operator on one operand binds tighter than a match, or is another match
  have hprecedes : ∀ top ∈ ops.map Operator.unary, top.precedes r.operator = true := by
    intro top hm
    obtain ⟨op, -, rfl⟩ := List.mem_map.1 hm
    cases op <;> rfl
  have hsettle := Syntax.settle_of_precedes hprecedes (firm_nil.rests r.operator) b.items
  rw [List.append_nil] at hsettle
  rw [Assembly.pushOperator, hp, hsettle, hsettled]
  rfl

theorem starts_cons (h : IsOperand env text b i) :
    ∃ c rest, text.toList = c :: rest ∧ Text.isSpace c = false ∧ c ≠ ')' := by
  obtain ⟨place, hreach⟩ := h.reads
  cases htext : text.toList with
  | nil =>
    rw [htext] at hreach
    cases hreach with
    | step hs _ => cases hs
  | cons c rest =>
    refine ⟨c, rest, rfl, h.starts c (by rw [htext]; rfl), ?_⟩
    rintro rfl
    rw [htext] at hreach
    cases hreach with
    | step hs _ => cases hs

theorem begun (h : IsOperand env text b i) : b.settled.Begun := by
  obtain ⟨ops, rest, -, hs⟩ := Assembly.settled_eq b
  have hb : b.Begun := h.reads.begun (.inr ⟨rfl, _, rfl⟩)
  exact hb.append (congrArg Assembly.items hs)

/-- Where an operand comes next, the operand is read up to what ends it. -/
theorem comes (h : IsOperand env text b i) (hc : c ∈ operandEnds) (hb : Firm base.pending) :
    Comes env ⟨text.toList ++ c :: more, .operand :: .operator :: below, base, k⟩
      ⟨c :: more, .operator :: below, base.atop (k + ·) b, k + i⟩ :=
  h.reads.comes hc hb (.inr ⟨rfl, _, rfl⟩) k

/-- In parentheses, all that waits in the operand is settled. -/
theorem comes_group (h : IsOperand env text b i) :
    Comes env ⟨'(' :: (text.toList ++ ')' :: more), .operand :: .operator :: below, base, k⟩
      ⟨more, .operator :: below, base.atop (k + ·) b.settled, k + i⟩ := by
  have hopen : Comes env ⟨'(' :: (text.toList ++ ')' :: more), .operand :: .operator :: below, base, k⟩
      ⟨text.toList ++ ')' :: more, .operand :: .operator :: below, base.openGroup, k⟩ :=
    .char fun position => ⟨position.after '(', rfl⟩
  obtain ⟨items, hs, -⟩ := h.settled
  have hclose : (base.openGroup.atop (k + ·) b).closeGroup = .ok (base.atop (k + ·) b.settled) := by
    rw [Assembly.closeGroup, Assembly.settled_atop (firm_group _), hs]
    rfl
  have hend : Comes env ⟨')' :: more, .operator :: below, base.openGroup.atop (k + ·) b, k + i⟩
      ⟨more, .operator :: below, base.atop (k + ·) b.settled, k + i⟩ :=
    .char fun position => ⟨position.after ')', Syntax.step_closeGroup hclose more position⟩
  exact hopen.trans ((h.comes (by decide) (firm_group _)).trans hend)

end IsOperand

namespace IsSuffix

variable {text : String} {a b base : Assembly} {i j k : Nat} {c : Char} {below : List Mode} {more : List Char}

theorem comes (h : IsSuffix env text a b i j) (ha : a.Begun) (hc : c ∈ operandEnds) (hb : Firm base.pending) :
    Comes env ⟨text.toList ++ c :: more, .operator :: below, base.atop (k + ·) a, k + i⟩
      ⟨c :: more, .operator :: below, base.atop (k + ·) b, k + j⟩ :=
  h.reads.comes hc hb (.inl ha) k

/-- An operator that waits below the path does not come into it. -/
theorem holding (h : IsSuffix env text a b i j) (op : Operator) :
    ReadsAlone env text.toList [.operator] (a.holding op) (b.holding op) i j := by
  obtain ⟨place, hreach⟩ := h.reads
  exact ⟨place, (hreach.holding (h.complete ▸ rooted_nil)).2⟩

end IsSuffix

section reading

variable {operand suffix matching : String} {b c base : Assembly} {i j k : Nat} {r : PatternText env} {d : Char}
  {below : List Mode} {more : List Char}

theorem IsMatch.starts_cons (h : IsMatch r matching) : ∃ rest, matching.toList = '=' :: rest := by
  obtain ⟨before, behind, -, -, htext⟩ := h
  exact ⟨_, htext⟩

/-- A match with a path behind it: the path goes on with the operand, and the match waits below. -/
theorem comes_match_suffix (he : IsOperand env operand b i) (hm : IsMatch r matching)
    (hs : IsSuffix env suffix b.settled c i j) (hb : Firm base.pending) (hd : d ∈ operandEnds) :
    Comes env
      ⟨operand.toList ++ (matching.toList ++ (suffix.toList ++ d :: more)), .operand :: .operator :: below, base, k⟩
      ⟨d :: more, .operator :: below, base.atop (k + ·) (c.holding r.operator), k + j⟩ := by
  obtain ⟨rest, hrest⟩ := hm.starts_cons
  have hoperand : Comes env
      ⟨operand.toList ++ (matching.toList ++ (suffix.toList ++ d :: more)), .operand :: .operator :: below, base, k⟩
      ⟨matching.toList ++ (suffix.toList ++ d :: more), .operator :: below, base.atop (k + ·) b, k + i⟩ := by
    rw [hrest]
    exact he.comes (by decide) hb
  have hmatch : Comes env
      ⟨matching.toList ++ (suffix.toList ++ d :: more), .operator :: below, base.atop (k + ·) b, k + i⟩
      ⟨suffix.toList ++ d :: more, .operator :: below, base.atop (k + ·) (b.settled.holding r.operator), k + i⟩ := by
    obtain ⟨items, -, hlikes⟩ := he.settled
    rw [← hlikes, ← Assembly.pushOperator_atop hb]
    refine hm.comes ?_
    obtain ⟨x, others, htext, hx⟩ := hs.starts
    rw [htext]
    rintro y hy rfl
    obtain rfl : x = 'i' := by simpa using hy
    revert hx
    decide
  have hsuffix : Comes env
      ⟨suffix.toList ++ d :: more, .operator :: below, base.atop (k + ·) (b.settled.holding r.operator), k + i⟩
      ⟨d :: more, .operator :: below, base.atop (k + ·) (c.holding r.operator), k + j⟩ :=
    (hs.holding r.operator).comes hd hb (.inl he.begun) k
  exact hoperand.trans (hmatch.trans hsuffix)

/-- The operand in parentheses with the path behind it, and then the match. -/
theorem comes_suffix_match (he : IsOperand env operand b i) (hm : IsMatch r matching)
    (hs : IsSuffix env suffix b.settled c i j) (hb : Firm base.pending) (hd : d ∈ operandEnds) :
    Comes env ⟨'(' :: (operand.toList ++ ')' :: (suffix.toList ++ (matching.toList ++ d :: more))),
        .operand :: .operator :: below, base, k⟩
      ⟨d :: more, .operator :: below, base.atop (k + ·) (c.holding r.operator), k + j⟩ := by
  obtain ⟨rest, hrest⟩ := hm.starts_cons
  have hsuffix : Comes env
      ⟨suffix.toList ++ (matching.toList ++ d :: more), .operator :: below, base.atop (k + ·) b.settled, k + i⟩
      ⟨matching.toList ++ d :: more, .operator :: below, base.atop (k + ·) c, k + j⟩ := by
    rw [hrest]
    exact hs.comes he.begun (by decide) hb
  have hlikes : (base.atop (k + ·) c).pushOperator r.operator = base.atop (k + ·) (c.holding r.operator) := by
    rw [Assembly.pushOperator_atop hb, Assembly.holding, hs.complete, Assembly.pushOperator, hs.complete]
    rfl
  have hmatch : Comes env ⟨matching.toList ++ d :: more, .operator :: below, base.atop (k + ·) c, k + j⟩
      ⟨d :: more, .operator :: below, base.atop (k + ·) (c.holding r.operator), k + j⟩ := by
    rw [← hlikes]
    refine hm.comes ?_
    rintro y hy rfl
    obtain rfl : d = 'i' := by simpa using hy
    exact (operandEnds_spec 'i' hd).2.2.2.1 rfl
  exact he.comes_group.trans (hsuffix.trans hmatch)

end reading

namespace Query

theorem compileWith_eq_ok {text : String} {q : Query} :
    compileWith env text = .ok q ↔ Program.ofText env.withLibrary text = .ok q.program := by
  constructor
  · intro h
    obtain ⟨p, hp, rfl⟩ := map_eq_ok h
    exact hp
  · intro h
    rw [compileWith, h]
    rfl

/-- Where two texts lead to the same place, what is read from there decides about both. -/
theorem compileWith_iff_of_comes {text other : String} {τ : Stage} {q : Query}
    (h : Comes env.withLibrary ⟨text.toList, [.start], .empty, 0⟩ τ)
    (h' : Comes env.withLibrary ⟨other.toList, [.start], .empty, 0⟩ τ) :
    compileWith env text = .ok q ↔ compileWith env other = .ok q := by
  obtain ⟨later, hreach⟩ := h .start
  obtain ⟨later', hreach'⟩ := h' .start
  have hrun : Program.ofText env.withLibrary text = (τ.at later).run env.withLibrary := hreach.run
  have hrun' : Program.ofText env.withLibrary other = (τ.at later').run env.withLibrary :=
    hreach'.run
  rw [compileWith_eq_ok, compileWith_eq_ok, hrun, hrun']
  exact ⟨fun hp => Machine.run_movedTo hp later', fun hp => Machine.run_movedTo hp later⟩

/-- Wherever an expression starts, a path behind a match is the path of its operand. `E =~ /r/ S` compiles to the
program of `(E) S =~ /r/`, whatever follows. -/
theorem suffix_before_match {env : Env} {before after operand suffix matching : String} {b c : Assembly}
    {i j : Nat} {r : PatternText env.withLibrary} {d : Char} {more : List Char} (q : Query)
    (hbefore : OpensExpression env.withLibrary before)
    (he : IsOperand env.withLibrary operand b i) (hm : IsMatch r matching)
    (hs : IsSuffix env.withLibrary suffix b.settled c i j)
    (hafter : after.toList = d :: more) (hd : d ∈ operandEnds) :
    compileWith env (before ++ (operand ++ matching ++ suffix) ++ after) = .ok q ↔
      compileWith env (before ++ ("(" ++ operand ++ ")" ++ suffix ++ matching) ++ after) = .ok q := by
  obtain ⟨below, base, k, hb, hopens⟩ := hbefore
  obtain ⟨x, others, hx, hblank, hparenthesis⟩ := he.starts_cons
  have hmatched : Comes env.withLibrary
      ⟨(before ++ (operand ++ matching ++ suffix) ++ after).toList, [.start], .empty, 0⟩
      ⟨d :: more, .operator :: below, base.atop (k + ·) (c.holding r.operator), k + j⟩ := by
    have hstart := hopens x (others ++ (matching.toList ++ (suffix.toList ++ d :: more))) hblank hparenthesis
    rw [← List.cons_append, ← hx] at hstart
    have hread := hstart.trans (comes_match_suffix he hm hs hb hd)
    simpa [hafter] using hread
  have hextended : Comes env.withLibrary
      ⟨(before ++ ("(" ++ operand ++ ")" ++ suffix ++ matching) ++ after).toList, [.start], .empty, 0⟩
      ⟨d :: more, .operator :: below, base.atop (k + ·) (c.holding r.operator), k + j⟩ := by
    have hstart := hopens '(' (operand.toList ++ ')' :: (suffix.toList ++ (matching.toList ++ d :: more)))
      rfl (by decide)
    have hread := hstart.trans (comes_suffix_match he hm hs hb hd)
    simpa [hafter] using hread
  exact compileWith_iff_of_comes hmatched hextended

/-- `/x/` -/
def slashedX : PatternText (Env.standard []).withLibrary :=
  ⟨['x'], ['x'], .char (by decide) (by decide) .nil, false, _, rfl⟩

theorem suffix_before_match_places :
    (∃ q, compileWith (.standard []) ("$[?" ++ ("!@.a " ++ "=~ /x/ " ++ ".b") ++ "]") = .ok q ∧
      compileWith (.standard []) ("$[?" ++ ("(" ++ "!@.a " ++ ")" ++ ".b" ++ "=~ /x/ ") ++ "]") = .ok q) ∧
    (∃ q, compileWith (.standard []) ("$[(" ++ ("!@.a " ++ "=~ /x/ " ++ ".b") ++ ")]") = .ok q ∧
      compileWith (.standard []) ("$[(" ++ ("(" ++ "!@.a " ++ ")" ++ ".b" ++ "=~ /x/ ") ++ ")]") = .ok q) ∧
    ∃ q, compileWith (.standard []) ("length(" ++ ("!@.a " ++ "=~ /x/ " ++ ".b") ++ ")") = .ok q ∧
      compileWith (.standard []) ("length(" ++ ("(" ++ "!@.a " ++ ")" ++ ".b" ++ "=~ /x/ ") ++ ")") = .ok q := by
  have hlist : ∀ more, Comes (Env.standard []).withLibrary ⟨"$[".toList ++ more, [.start], .empty, 0⟩
      ⟨more, [.element, .elementEnd, .path],
        ((Assembly.empty.push .root).pushSelector (.root 0)).pushMark .union, 1⟩ :=
    fun more position => ⟨_, .step rfl (.step rfl (.refl _))⟩
  have hcall : ∀ more, Comes (Env.standard []).withLibrary ⟨"length(".toList ++ more, [.start], .empty, 0⟩
      ⟨more, [.firstArgument, .arguments, .path],
        (Assembly.empty.push .current).openScope (.call (Library.unary "length" Library.length)), 0⟩ :=
    fun more position => ⟨_, .step rfl (.step rfl (.step rfl (.step rfl (.step rfl (.step rfl (.step rfl
      (.step rfl (.step rfl (.refl _)))))))))⟩
  have he : IsOperand (Env.standard []).withLibrary "!@.a "
      ⟨[.instr (.path [.current, .member "a"]), .instr .current], [.operator (.unary .not)]⟩ 0 := by
    have hstarts : ∀ c ∈ "!@.a ".toList.head?, Text.isSpace c = false := by
      rintro _ ⟨⟩
      rfl
    refine ⟨hstarts, ?_, [.not], rfl⟩
    exact ⟨_, .step rfl (.step rfl (.step rfl (.step rfl (.step rfl (.step rfl (.step rfl (.step rfl (.refl _))))))))⟩
  have hblank : Blanks [' '] := by simp [Blanks, Text.isSpace]
  have hm : IsMatch slashedX "=~ /x/ " := ⟨[' '], [' '], hblank, hblank, rfl⟩
  have hs : IsSuffix (Env.standard []).withLibrary ".b"
      ⟨[.instr (.unary .not), .instr (.path [.current, .member "a"]), .instr .current], []⟩
      ⟨[.instr (.path [.member "b"]), .instr (.unary .not), .instr (.path [.current, .member "a"]), .instr .current],
        []⟩ 0 0 := by
    refine ⟨⟨'.', ['b'], rfl, .inl rfl⟩, ?_, rfl⟩
    exact ⟨_, .step rfl (.step rfl (.step rfl (.step rfl (.step rfl (.refl _)))))⟩
  have filtered : compileWith (.standard []) ("$[?" ++ ("!@.a " ++ "=~ /x/ " ++ ".b") ++ "]") = .ok _ :=
    compileWith_of_runFor (k := 60) rfl
  have computed : compileWith (.standard []) ("$[(" ++ ("!@.a " ++ "=~ /x/ " ++ ".b") ++ ")]") = .ok _ :=
    compileWith_of_runFor (k := 60) rfl
  have passed : compileWith (.standard []) ("length(" ++ ("!@.a " ++ "=~ /x/ " ++ ".b") ++ ")") = .ok _ :=
    compileWith_of_runFor (k := 60) rfl
  refine ⟨⟨_, filtered, ?_⟩, ⟨_, computed, ?_⟩, _, passed, ?_⟩
  · exact (suffix_before_match _ (opensExpression_filter hlist) he hm hs rfl (by decide)).1 filtered
  · exact (suffix_before_match _ (opensExpression_computed hlist) he hm hs rfl (by decide)).1 computed
  · exact (suffix_before_match _ (opensExpression_argument (firm_scope _) hcall) he hm hs rfl (by decide)).1 passed

/-- With the match in parentheses the path goes on with its result, and the program is another. -/
theorem suffix_before_match_not_behind : ∃ q q',
    compileWith (.standard []) "$[?(@.a =~ /x/ .b)]" = .ok q ∧
      compileWith (.standard []) "$[?((@.a =~ /x/).b)]" = .ok q' ∧
      q.program ≠ q'.program ∧
      (q.matchesOf .plain (.array [.object [("a", .object [("b", .string "x")])]])).result =
        .ok [([.index 0], .object [("a", .object [("b", .string "x")])])] ∧
      (q'.matchesOf .plain (.array [.object [("a", .object [("b", .string "x")])]])).result = .ok [] := by
  refine ⟨⟨[.root, .path [.root 0, .filter [.current, .path [.current, .member "a", .member "b"],
      .unary (.likes slashedX.pattern)]]]⟩,
    ⟨[.root, .path [.root 0, .filter [.current, .path [.current, .member "a"], .unary (.likes slashedX.pattern),
      .path [.member "b"]]]]⟩, ?_, ?_, ?_, ?_, ?_⟩
  · exact compileWith_of_runFor (k := 60) rfl
  · exact compileWith_of_runFor (k := 60) rfl
  · intro h
    cases h
  · rfl
  · rfl

end Query

end PathQuery
