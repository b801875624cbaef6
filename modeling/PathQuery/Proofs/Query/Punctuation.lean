import PathQuery.Proofs.Query.Closing
import PathQuery.Proofs.Query.Literals

namespace PathQuery.Syntax

variable {env : Env} {mode : Mode} {below : List Mode} {a : Assembly} {k : Nat} {t : Token} {ts : List Token}

/-- The modes in which a path can go on. -/
inductive Onward : Mode → Prop
  | path : Onward .path
  | operator : Onward .operator

theorem Onward.skipsBlanks (h : Onward mode) : skipsBlanks mode = true := by
  cases h <;> rfl

section paths

theorem leads_dot (ho : Onward mode) (ht : t.first ≠ '.') :
    Leads env ⟨.char '.' :: t :: ts, mode :: below, a, k⟩ ⟨t :: ts, .dotName :: mode :: below, a, k⟩ := by
  have hdot : Leads env ⟨.char '.' :: t :: ts, mode :: below, a, k⟩ ⟨t :: ts, .dot :: mode :: below, a, k⟩ :=
    .char ho.skipsBlanks fun rest position => ⟨position.after '.', by cases ho <;> rfl⟩
  refine hdot.trans (.keepAll fun ch rest hc position => ⟨position, ?_⟩)
  have hne : ch ≠ '.' := by
    rintro rfl
    rcases hc with hc | hc
    · cases hc
    · exact ht hc.symm
  simp [Machine.step, Machine.stepIn, Machine.readDot, hne, Machine.goto]

theorem comes_dots (ho : Onward mode) {rest : List Char} :
    Comes env ⟨'.' :: '.' :: rest, mode :: below, a, k⟩
      ⟨rest, .descent :: mode :: below, a.pushSelector .descend, k⟩ := by
  have hdot : Comes env ⟨'.' :: '.' :: rest, mode :: below, a, k⟩ ⟨'.' :: rest, .dot :: mode :: below, a, k⟩ :=
    .char fun position => ⟨position.after '.', by cases ho <;> rfl⟩
  exact hdot.trans (.char fun position => ⟨position.after '.', rfl⟩)

/-- Two dots before a name or a star. -/
theorem leads_dots (ho : Onward mode) (ht : t.first ≠ '[') :
    Leads env ⟨⟨'.', ['.'], false⟩ :: t :: ts, mode :: below, a, k⟩
      ⟨t :: ts, .dotName :: mode :: below, a.pushSelector .descend, k⟩ := by
  have hdots : Leads env ⟨⟨'.', ['.'], false⟩ :: t :: ts, mode :: below, a, k⟩
      ⟨t :: ts, .descent :: mode :: below, a.pushSelector .descend, k⟩ :=
    .token ho.skipsBlanks fun _ _ => comes_dots ho
  refine hdots.trans (.keepAll fun ch rest hc position => ⟨position, ?_⟩)
  have hne : ch ≠ '[' := by
    rintro rfl
    rcases hc with hc | hc
    · cases hc
    · exact ht hc.symm
  simp [Machine.step, Machine.stepIn, Machine.readDescent, hne, Machine.goto]

theorem leads_star :
    Leads env ⟨.char '*' :: ts, .dotName :: below, a, k⟩ ⟨ts, below, a.pushSelector .wildcard, k⟩ :=
  .char rfl fun _ position => ⟨position.after '*', rfl⟩

theorem MemberName.first_ne (n : MemberName) {c : Char} (hc : isDelimiter c = true) (hq : c ≠ '\'' ∧ c ≠ '"') :
    n.token.first ≠ c := by
  cases n with
  | bare n => exact ne_of_isDelimiter n.first_plain hc
  | quoted t => exact t.cases_quote (p := fun q => q ≠ c) ⟨hq.1.symm, hq.2.symm⟩

end paths

section lists

theorem leads_openList (ho : Onward mode) :
    Leads env ⟨.char '[' :: ts, mode :: below, a, k⟩
      ⟨ts, .element :: .elementEnd :: mode :: below, a.pushMark .union, k⟩ :=
  .char ho.skipsBlanks fun rest position => ⟨position.after '[', by cases ho <;> rfl⟩

theorem leads_openDeepList (ho : Onward mode) :
    Leads env ⟨⟨'.', ['.', '['], false⟩ :: ts, mode :: below, a, k⟩
      ⟨ts, .element :: .elementEnd :: mode :: below, (a.pushSelector .descend).pushMark .union, k⟩ :=
  .token ho.skipsBlanks fun _ _ => (comes_dots ho).trans (.char fun position => ⟨position.after '[', rfl⟩)

theorem leads_separator :
    Leads env ⟨.char ',' :: ts, .elementEnd :: below, a, k⟩
      ⟨ts, .element :: .elementEnd :: below, a.pushMark .separator, k⟩ :=
  .char rfl fun _ position => ⟨position.after ',', rfl⟩

theorem leads_closeList (first : Branch) (others : List Branch) :
    Leads env ⟨.char ']' :: ts, .elementEnd :: below, a.withList first others, k⟩
      ⟨ts, below, a.pushPath (bracketSelectors first others), k⟩ := by
  refine .char rfl fun rest position => ⟨position.after ']', ?_⟩
  show (Machine.attempt ⟨rest, _, _, a.withList first others, k⟩ Assembly.closeUnion).map _ = _
  rw [Machine.attempt, Assembly.closeUnion_withList]
  rfl

/-- What can stand behind an element of a bracket list. -/
def EndsElement (t : Token) : Prop := t = .char ']' ∨ t = .char ','

theorem EndsElement.first (h : EndsElement t) : t.first = ']' ∨ t.first = ',' := by
  rcases h with rfl | rfl
  · exact .inl rfl
  · exact .inr rfl

theorem EndsElement.stops (h : EndsElement t) (ts : List Token) : Stops (t :: ts) := by
  rcases h with rfl | rfl
  · exact .close (.inr (.inl rfl)) ts
  · exact .close (.inr (.inr rfl)) ts

/-- A path that is an element, or an expression in one, ends with the element. -/
theorem leads_elementEnd (ho : Onward mode) (ht : EndsElement t) :
    Leads env ⟨t :: ts, mode :: below, a, k⟩ ⟨t :: ts, below, a, k⟩ := by
  refine .keep ho.skipsBlanks fun rest => .char fun position => ⟨position, ?_⟩
  rcases ht with rfl | rfl <;> cases ho <;> rfl

theorem leads_elementStar :
    Leads env ⟨.char '*' :: ts, .element :: below, a, k⟩ ⟨ts, .path :: below, a.pushSelector .wildcard, k⟩ :=
  .char rfl fun _ position => ⟨position.after '*', rfl⟩

theorem leads_elementRoot :
    Leads env ⟨.char '$' :: ts, .element :: below, a, k⟩
      ⟨ts, .path :: below, (a.push .root).withPath [.root k], k + 1⟩ :=
  .char rfl fun _ position => ⟨position.after '$', rfl⟩

theorem leads_elementCurrent :
    Leads env ⟨.char '@' :: ts, .element :: below, a, k⟩
      ⟨ts, .path :: below, (a.push .current).withPath [.current], k⟩ :=
  .char rfl fun _ position => ⟨position.after '@', rfl⟩

theorem leads_openFilter :
    Leads env ⟨.char '?' :: ts, .element :: below, a, k⟩
      ⟨ts, .operand :: .operator :: .filterEnd :: below, a.openScope .filter, k⟩ :=
  .char rfl fun _ position => ⟨position.after '?', rfl⟩

/-- A filter or computed key is closed by what ends its element. -/
theorem leads_closeExpression {isMark : Item → Bool} {selector : Program → Selector} {mark : Mark}
    (hi : ∀ i, isMark (.instr i) = false) (hm : isMark (.mark mark) = true) (hk : skipsBlanks mode = true)
    (hstep : ∀ rest position a, Machine.step ⟨rest, position, mode :: below, a, k⟩ env =
      Machine.readExpressionEnd ⟨rest, position, mode :: below, a, k⟩ below
        (Assembly.closeExpression isMark selector) rest)
    (u : Tree env Atom) (ht : EndsElement t) :
    Leads env ⟨t :: ts, mode :: below, u.assembled (a.openScope mark), k⟩
      ⟨t :: ts, below, a.pushSelector (selector u.post), k⟩ := by
  refine .keep hk fun rest => .char fun position => ⟨position, ?_⟩
  rw [hstep]
  rcases ht with rfl | rfl
  all_goals
    show (Machine.attempt ⟨_, position, _, u.assembled (a.openScope mark), k⟩ _).map _ = _
    rw [Machine.attempt, Assembly.closeExpression_assembled hi hm]
    rfl

theorem leads_closeFilter (u : Tree env Atom) (ht : EndsElement t) :
    Leads env ⟨t :: ts, .filterEnd :: below, u.assembled (a.openScope .filter), k⟩
      ⟨t :: ts, below, a.pushSelector (.filter u.post), k⟩ :=
  leads_closeExpression (fun _ => rfl) rfl rfl (fun _ _ _ => rfl) u ht

/-- The parenthesis of a computed key is also that of a group, with which its expression starts. -/
theorem leads_openComputed :
    Leads env ⟨.char '(' :: ts, .element :: below, a, k⟩
      ⟨.char '(' :: ts, .operand :: .operator :: .computedEnd :: below, a.openScope .computed, k⟩ :=
  .keep rfl fun _ => .char fun position => ⟨position, rfl⟩

theorem leads_closeComputed (u : Tree env Atom) (ht : EndsElement t) :
    Leads env ⟨t :: ts, .computedEnd :: below, u.assembled (a.openScope .computed), k⟩
      ⟨t :: ts, below, a.pushSelector (.computed u.post), k⟩ :=
  leads_closeExpression (fun _ => rfl) rfl rfl (fun _ _ _ => rfl) u ht

end lists

section expressions

theorem leads_operandRoot :
    Leads env ⟨.char '$' :: ts, .operand :: below, a, k⟩ ⟨ts, below, (a.push .root).withPath [.root k], k + 1⟩ :=
  .char rfl fun _ position => ⟨position.after '$', rfl⟩

theorem leads_operandCurrent :
    Leads env ⟨.char '@' :: ts, .operand :: below, a, k⟩ ⟨ts, below, (a.push .current).withPath [.current], k⟩ :=
  .char rfl fun _ position => ⟨position.after '@', rfl⟩

theorem leads_prefixOp (op : PrefixOp) :
    Leads env ⟨op.token :: ts, .operand :: below, a, k⟩ ⟨ts, .operand :: below, a.pushOperator op.operator, k⟩ := by
  cases op with
  | not => exact .char rfl fun _ position => ⟨position.after '!', rfl⟩
  | negate => exact .char rfl fun _ position => ⟨position.after '-', rfl⟩

theorem leads_openGroup :
    Leads env ⟨.char '(' :: ts, .operand :: below, a, k⟩ ⟨ts, .operand :: below, a.openGroup, k⟩ :=
  .char rfl fun _ position => ⟨position.after '(', rfl⟩

/-- Where a group can be closed, the parenthesis closes it. -/
theorem step_closeGroup {b : Assembly} (h : a.closeGroup = .ok b) (rest : List Char) (position : Text.Position) :
    Machine.step ⟨')' :: rest, position, .operator :: below, a, k⟩ env =
      .ok ⟨rest, position.after ')', .operator :: below, b, k⟩ := by
  show (if a.hasOpenGroup = true then
      Machine.attempt ⟨rest, position.after ')', .operator :: below, a, k⟩ Assembly.closeGroup
    else _) = _
  rw [if_pos (Assembly.hasOpenGroup_of_closeGroup h), Machine.attempt_of_ok h]

theorem leads_closeGroup (u : Tree env Atom) :
    Leads env ⟨.char ')' :: ts, .operator :: below, u.assembled a.openGroup, k⟩
      ⟨ts, .operator :: below, (Tree.group u).assembled a, k⟩ :=
  .char rfl fun rest position => ⟨position.after ')', step_closeGroup (Assembly.closeGroup_assembled u a) rest position⟩

/-- The modes behind the sign of an inequality, with the operator that it is by itself. -/
inductive Inequality : Mode → BinaryOp → Prop
  | less : Inequality .less .lt
  | greater : Inequality .greater .gt

theorem comes_strict {op : BinaryOp} {rest : List Char} (hm : Inequality mode op) (hr : ∀ c ∈ rest.head?, c ≠ '=') :
    Comes env ⟨rest, mode :: below, a, k⟩ ⟨rest, .operand :: below, a.pushOperator (.binary op), k⟩ := by
  cases rest with
  | nil => cases hm <;> exact .atEnd fun position => ⟨position, rfl⟩
  | cons c rest =>
    have hc := hr c rfl
    refine .char fun position => ⟨position, ?_⟩
    cases hm <;>
      simp [Machine.step, Machine.stepIn, Machine.readInequality, hc, Machine.emitBinary, Machine.emitOperator,
        Machine.emit, Machine.goto]

/-- A binary operator, behind which no sign follows that would make it another one. -/
theorem leads_binary (op : BinaryOp) (ht : t.first ≠ '=') :
    Leads env ⟨binaryToken op :: t :: ts, .operator :: below, a, k⟩
      ⟨t :: ts, .operand :: .operator :: below, a.pushOperator (.binary op), k⟩ := by
  refine .token rfl fun rest hf => ?_
  have hnext : ∀ c ∈ rest.head?, c ≠ '=' := by
    refine hf.head ?_ ?_
    · rintro c hc rfl
      cases hc
    · intro u hu
      obtain rfl : t = u := by simpa using hu
      exact .inr ht
  cases op with
  | lt => exact Comes.trans (.char fun position => ⟨position.after '<', rfl⟩) (comes_strict .less hnext)
  | gt => exact Comes.trans (.char fun position => ⟨position.after '>', rfl⟩) (comes_strict .greater hnext)
  | add | sub | mul | div => exact .char fun position => ⟨_, rfl⟩
  | _ => exact Comes.trans (.char fun position => ⟨_, rfl⟩) (.char fun position => ⟨_, rfl⟩)

/-- A match with a regular expression. -/
theorem leads_likes (r : PatternText env) (hs : Stops ts) :
    Leads env ⟨likesToken :: r.token :: ts, .operator :: below, a, k⟩
      ⟨ts, .operator :: below, a.pushOperator r.operator, k⟩ := by
  have hsign : Leads env ⟨likesToken :: r.token :: ts, .operator :: below, a, k⟩
      ⟨r.token :: ts, .patternStart :: .operator :: below, a, k⟩ :=
    .token rfl fun rest _ =>
      Comes.trans (.char fun position => ⟨position.after '=', rfl⟩) (.char fun position => ⟨position.after '~', rfl⟩)
  exact hsign.trans (leads_pattern r hs)

end expressions

section calls

variable {c : Assembly} {f : Function} {ps : List Program}

/-- The first argument begins, if there is one. -/
theorem leads_firstArgument (hs : Text.isSpace t.first = false) (ht : t.first ≠ ')') :
    Leads env ⟨t :: ts, .firstArgument :: below, a, k⟩ ⟨t :: ts, .operand :: .operator :: below, a, k⟩ := by
  refine .keep rfl fun rest => .char fun position => ⟨position, ?_⟩
  simp [Machine.step, Machine.stepIn, Machine.readFirstArgument, hs, ht, Machine.goto]

theorem leads_noArguments (hf : f.accepts 0 = true) :
    Leads env ⟨.char ')' :: ts, .firstArgument :: .arguments :: below, c.openScope (.call f), k⟩
      ⟨ts, below, c.pushSelector (.call f []), k⟩ := by
  have hnone : Leads env ⟨.char ')' :: ts, .firstArgument :: .arguments :: below, c.openScope (.call f), k⟩
      ⟨.char ')' :: ts, .arguments :: below, c.openScope (.call f), k⟩ :=
    .keep rfl fun rest => .char fun position => ⟨position, rfl⟩
  refine hnone.trans (.char rfl fun rest position => ⟨position.after ')', ?_⟩)
  show (Machine.attempt ⟨rest, _, _, c.withArguments f [], k⟩ Assembly.closeCall).map _ = _
  rw [Machine.attempt, Assembly.closeCall_withArguments hf (by simp)]
  rfl

/-- A comma ends an argument. -/
theorem leads_nextArgument (u : Tree env Atom) :
    Leads env ⟨.char ',' :: ts, .operator :: .arguments :: below, u.assembled (c.withArguments f ps), k⟩
      ⟨ts, .operand :: .operator :: .arguments :: below, c.withArguments f (ps ++ [u.post]), k⟩ := by
  have hend : Leads env ⟨.char ',' :: ts, .operator :: .arguments :: below, u.assembled (c.withArguments f ps), k⟩
      ⟨.char ',' :: ts, .arguments :: below, u.assembled (c.withArguments f ps), k⟩ :=
    leads_elementEnd .operator (.inr rfl)
  refine hend.trans (.char rfl fun rest position => ⟨position.after ',', ?_⟩)
  show (Machine.attempt ⟨rest, _, _, u.assembled (c.withArguments f ps), k⟩ Assembly.closeArgument).map _ = _
  rw [Machine.attempt, Assembly.closeArgument_assembled]
  rfl

/-- A parenthesis that closes no group ends the last argument. -/
theorem leads_closeCall {u : Tree env Atom} (hf : f.accepts (ps.length + 1) = true)
    (hp : ∀ p ∈ ps, Program.height? 0 p = some 1) :
    Leads env ⟨.char ')' :: ts, .operator :: .arguments :: below, u.assembled (c.withArguments f ps), k⟩
      ⟨ts, below, c.pushSelector (.call f (ps ++ [u.post])), k⟩ := by
  have hgroup : (u.assembled (c.withArguments f ps)).hasOpenGroup = false :=
    Assembly.hasOpenGroup_assembled u (c.withArguments f ps)
  have hend : Leads env ⟨.char ')' :: ts, .operator :: .arguments :: below, u.assembled (c.withArguments f ps), k⟩
      ⟨.char ')' :: ts, .arguments :: below, u.assembled (c.withArguments f ps), k⟩ := by
    refine .keep rfl fun rest => .char fun position => ⟨position, ?_⟩
    show (if (u.assembled (c.withArguments f ps)).hasOpenGroup = true then _ else _) = _
    rw [hgroup]
    rfl
  refine hend.trans (.char rfl fun rest position => ⟨position.after ')', ?_⟩)
  show (Machine.attempt ⟨rest, _, _, u.assembled (c.withArguments f ps), k⟩ Assembly.closeCall).map _ = _
  rw [Machine.attempt, Assembly.closeCall_assembled hf hp]
  rfl

end calls

end PathQuery.Syntax
