import PathQuery.Proofs.Query.Brackets

namespace PathQuery

/-- At the bottom of what waits, if anything does, is a group or a scope. -/
def Rooted (pending : List Pending) : Prop := ∀ op, pending.getLast? ≠ some (.operator op)

section rooted

variable {pending : List Pending} {w : Pending}

theorem rooted_nil : Rooted [] := nofun

/-- What waits on top does not matter. -/
theorem rooted_append_cons (front : List Pending) : Rooted (front ++ w :: pending) ↔ Rooted (w :: pending) := by
  have hlast : (front ++ w :: pending).getLast? = (w :: pending).getLast? := by
    rw [List.getLast?_append, List.getLast?_cons]
    rfl
  rw [Rooted, Rooted, hlast]

theorem Rooted.cons (hw : ∀ op, w ≠ .operator op) (h : Rooted pending) : Rooted (w :: pending) := by
  cases pending with
  | nil =>
    intro op hp
    exact hw op (Option.some.inj hp)
  | cons v pending => exact (rooted_append_cons [w]).2 h

/-- How an act changes what waits. -/
inductive PendingTurn : List Pending → List Pending → Prop
  | same (pending : List Pending) : PendingTurn pending pending
  | opened (w : Pending) (pending : List Pending) : PendingTurn pending (w :: pending)
  | operator (ops : List Operator) (op : Operator) (rest : List Pending) :
      PendingTurn (ops.map .operator ++ rest) (.operator op :: rest)
  | group (ops : List Operator) (rest : List Pending) : PendingTurn (ops.map .operator ++ .group :: rest) rest
  | scope (ops : List Operator) (rest : List Pending) : PendingTurn (ops.map .operator ++ .scope :: rest) rest
  | argument (ops : List Operator) (rest : List Pending) :
      PendingTurn (ops.map .operator ++ .scope :: rest) (.scope :: rest)

/-- An operator at the bottom gives way only to another. -/
theorem PendingTurn.rooted {before after : List Pending} (h : PendingTurn before after) (ha : Rooted after) :
    Rooted before := by
  cases h with
  | same => exact ha
  | opened w =>
    cases before with
    | nil => exact rooted_nil
    | cons v before => exact (rooted_append_cons [w]).1 ha
  | operator ops op rest =>
    cases rest with
    | nil => exact absurd rfl (ha op)
    | cons w rest => exact (rooted_append_cons _).2 ((rooted_append_cons [.operator op]).1 ha)
  | group ops rest => exact (rooted_append_cons _).2 (ha.cons nofun)
  | scope ops rest => exact (rooted_append_cons _).2 (ha.cons nofun)
  | argument ops rest => exact (rooted_append_cons _).2 ha

end rooted

namespace Assembly

variable {a b : Assembly} {items : List Item} {pending : List Pending} {op : Operator}

theorem closeScope_turn (h : a.closeScope = .ok b) : PendingTurn a.pending b.pending := by
  obtain ⟨ops, hp, -⟩ := closeScope_cases h
  rw [hp]
  exact .scope ops _

theorem takeTo_pending {isMark : Item → Bool} {m : Item} (h : a.takeTo isMark = .ok (m, items, b)) :
    b.pending = a.pending := by
  obtain ⟨-, -, -, hp⟩ := takeTo_cases h
  exact hp

theorem closeCall_turn (h : a.closeCall = .ok b) : PendingTurn a.pending b.pending := by
  obtain ⟨c, d, m, items, e, f, arguments, hc, hd, he, -, rfl⟩ := closeCall_cases h
  have hscope := closeScope_turn hd
  rw [pushSelector_pending, takeTo_pending he]
  rcases closeLastArgument_cases hc with rfl | hc
  · exact hscope
  · obtain ⟨k, hk, rfl⟩ := closeArgument_cases hc
    obtain ⟨ops, rest, hp, rfl⟩ := settleScope_cases hk
    obtain ⟨others, hp', -⟩ := closeScope_cases hd
    cases others with
    | nil =>
      obtain rfl : rest = d.pending := (List.cons.inj hp').2
      rw [hp]
      exact .scope ops _
    | cons top others => cases (List.cons.inj hp').1

/-- What an act does to what waits. -/
theorem perform_turn {act : Act} {k : Nat} (h : act.perform k a = .ok b) : PendingTurn a.pending b.pending := by
  cases act with
  | skip | literal | separator | openUnion =>
    cases h
    exact .same _
  | root | current | selector =>
    cases h
    rw [pushSelector_pending]
    exact .same _
  | operator op =>
    cases h
    obtain ⟨ops, rest, hp, hs⟩ := settle_eq op a.items a.pending
    rw [pushOperator, hs, hp]
    exact .operator ops op rest
  | openGroup | openFilter | openComputed | openCall =>
    cases h
    exact .opened _ _
  | closeGroup =>
    obtain ⟨ops, hp, -⟩ := closeGroup_cases h
    rw [hp]
    exact .group ops _
  | closeUnion =>
    rw [pending_of_closeUnion h]
    exact .same _
  | closeFilter | closeComputed =>
    obtain ⟨c, m, items, d, p, hc, hd, -, rfl⟩ := closeExpression_cases h
    rw [pushSelector_pending, takeTo_pending hd]
    exact closeScope_turn hc
  | closeArgument =>
    obtain ⟨c, hc, rfl⟩ := closeArgument_cases h
    obtain ⟨ops, rest, hp, rfl⟩ := settleScope_cases hc
    rw [hp]
    exact .argument ops rest
  | closeCall => exact closeCall_turn h

/-- The assembly with an operator that waits below all that waits in it. -/
def holding (op : Operator) (a : Assembly) : Assembly := { a with pending := a.pending ++ [.operator op] }

theorem hasOpenGroup_holding : (a.holding op).hasOpenGroup = a.hasOpenGroup := by
  have hgo : ∀ pending, hasOpenGroup.go (pending ++ [.operator op]) = hasOpenGroup.go pending := by
    intro pending
    induction pending with
    | nil => rfl
    | cons top pending ih =>
      cases top with
      | operator top => exact ih
      | group | scope => rfl
  exact hgo a.pending

theorem pushPath_holding (steps : List Selector) : (a.holding op).pushPath steps = (a.pushPath steps).holding op := by
  obtain ⟨items, pending⟩ := a
  rcases items with _ | ⟨_ | _, items⟩
  · rfl
  · next i => cases i <;> rfl
  · rfl

theorem settle_holding (hr : Rooted pending) (hne : pending ≠ []) (next : Operator) :
    settle next items (pending ++ [.operator op]) = (settle next items pending).holding op := by
  induction pending generalizing items with
  | nil => exact absurd rfl hne
  | cons top pending ih =>
    cases top with
    | group | scope => rfl
    | operator top =>
      cases pending with
      | nil => exact absurd rfl (hr top)
      | cons w pending =>
        rw [List.cons_append, settle, settle]
        split
        · exact ih ((rooted_append_cons [.operator top]).1 hr) (List.cons_ne_nil w pending)
        · rfl

theorem pushOperator_holding {next : Operator} (hr : Rooted (a.pushOperator next).pending) :
    (a.holding op).pushOperator next = (a.pushOperator next).holding op := by
  obtain ⟨ops, rest, hp, hs⟩ := settle_eq next a.items a.pending
  rw [pushOperator, hs] at hr
  obtain ⟨w, rest, rfl⟩ : ∃ w others, rest = w :: others := by
    cases rest with
    | nil => exact absurd rfl (hr next)
    | cons w others => exact ⟨w, others, rfl⟩
  have hrooted : Rooted a.pending := by
    rw [hp]
    exact (rooted_append_cons _).2 ((rooted_append_cons [.operator next]).1 hr)
  have hne : a.pending ≠ [] := by simp [hp]
  have hsettle : settle next (a.holding op).items (a.holding op).pending = (settle next a.items a.pending).holding op :=
    settle_holding hrooted hne next
  rw [pushOperator, pushOperator, hsettle]
  rfl

/-- What is settled up to a group or scope does not come to the operator. -/
theorem settled_holding {w : Pending} {rest : List Pending} (h : a.settled = ⟨items, w :: rest⟩) :
    (a.holding op).settled = ⟨items, w :: rest ++ [.operator op]⟩ := by
  have hall : ∀ pending others, settleAll others pending = ⟨items, w :: rest⟩ →
      settleAll others (pending ++ [.operator op]) = ⟨items, w :: rest ++ [.operator op]⟩ := by
    intro pending
    induction pending with
    | nil =>
      intro others he
      cases he
    | cons top pending ih =>
      intro others he
      cases top with
      | operator top => exact ih _ he
      | group | scope =>
        cases he
        rfl
  exact hall a.pending a.items h

theorem closeGroup_holding (h : a.closeGroup = .ok b) : (a.holding op).closeGroup = .ok (b.holding op) := by
  unfold closeGroup at h
  split at h
  · next hs =>
    cases h
    rw [closeGroup, settled_holding hs]
    rfl
  · cases h

theorem closeScope_holding (h : a.closeScope = .ok b) : (a.holding op).closeScope = .ok (b.holding op) := by
  unfold closeScope at h
  split at h
  · next hs =>
    cases h
    rw [closeScope, settled_holding hs]
    rfl
  · cases h

theorem closeArgument_holding (h : a.closeArgument = .ok b) :
    (a.holding op).closeArgument = .ok (b.holding op) := by
  obtain ⟨c, hc, rfl⟩ := closeArgument_cases h
  unfold settleScope at hc
  split at hc
  · next hs =>
    cases hc
    rw [closeArgument, settleScope, settled_holding hs]
    rfl
  · cases hc

theorem takeTo_holding {isMark : Item → Bool} {m : Item} (h : a.takeTo isMark = .ok (m, items, b)) :
    (a.holding op).takeTo isMark = .ok (m, items, b.holding op) := by
  have hi : (a.holding op).items = a.items := rfl
  unfold takeTo at h ⊢
  rw [hi]
  split at h
  · cases h
    rfl
  · cases h

theorem closeUnion_holding (h : a.closeUnion = .ok b) : (a.holding op).closeUnion = .ok (b.holding op) := by
  obtain ⟨⟨m, items, c⟩, hc, h⟩ := bind_eq_ok h
  rw [closeUnion, takeTo_holding hc]
  have hunion : ((splitItems Item.isSeparator items).mapM branchOf >>= fun ps =>
        (pure (c.pushSelector (.union ps)) : Except SyntaxFault Assembly)) = .ok b →
      ((splitItems Item.isSeparator items).mapM branchOf >>= fun ps =>
        (pure ((c.holding op).pushSelector (.union ps)) : Except SyntaxFault Assembly)) = .ok (b.holding op) := by
    intro hb
    obtain ⟨ps, hps, hb⟩ := bind_eq_ok hb
    cases hb
    rw [hps]
    exact congrArg Except.ok (pushPath_holding _)
  -- a path that is the only branch goes on with the path around
  rcases items with _ | ⟨_ | i, _ | ⟨j, items⟩⟩
  · exact hunion h
  · next i =>
    cases i with
    | path steps =>
      cases h
      exact congrArg Except.ok (pushPath_holding steps)
    | _ => exact hunion h
  · next i => cases i <;> exact hunion h
  · exact hunion h
  · exact hunion h

theorem closeExpression_holding {isMark : Item → Bool} {selector : Program → Selector}
    (h : a.closeExpression isMark selector = .ok b) :
    (a.holding op).closeExpression isMark selector = .ok (b.holding op) := by
  obtain ⟨c, m, items, d, p, hc, hd, hp, rfl⟩ := closeExpression_cases h
  rw [closeExpression_of_taken (closeScope_holding hc) (takeTo_holding hd) hp]
  exact congrArg Except.ok (pushPath_holding _)

theorem closeLastArgument_holding (h : a.closeLastArgument = .ok b) :
    (a.holding op).closeLastArgument = .ok (b.holding op) := by
  have hi : (a.holding op).items = a.items := rfl
  unfold closeLastArgument at h ⊢
  rw [hi]
  split at h
  · next hc =>
    cases h
    rw [if_pos hc]
  · next hc =>
    rw [if_neg hc]
    exact closeArgument_holding h

theorem closeCall_holding (h : a.closeCall = .ok b) : (a.holding op).closeCall = .ok (b.holding op) := by
  obtain ⟨c, hc, h⟩ := bind_eq_ok h
  obtain ⟨d, hd, h⟩ := bind_eq_ok h
  obtain ⟨⟨m, items, e⟩, he, h⟩ := bind_eq_ok h
  rw [closeCall, closeLastArgument_holding hc]
  show ((c.holding op).closeScope >>= _) = _
  rw [closeScope_holding hd]
  show ((d.holding op).takeTo Item.isCall >>= _) = _
  rw [takeTo_holding he]
  cases m with
  | instr i => cases h
  | mark m =>
    cases m with
    | call f =>
      obtain ⟨arguments, harguments, h⟩ := bind_eq_ok h
      show (argumentsOf items >>= _) = _
      rw [harguments]
      split at h
      · next haccepts =>
        cases h
        show (if f.accepts arguments.length then _ else _) = _
        rw [if_pos haccepts]
        exact congrArg Except.ok (pushPath_holding _)
      · cases h
    | _ => cases h

/-- Where no operator joins it at the bottom, every act leaves the operator there. -/
theorem perform_holding {act : Act} {k : Nat} (hr : Rooted b.pending) (h : act.perform k a = .ok b) :
    act.perform k (a.holding op) = .ok (b.holding op) := by
  cases act with
  | skip | literal | separator | openUnion | openGroup | openFilter | openComputed | openCall =>
    cases h
    rfl
  | root | current =>
    cases h
    exact congrArg Except.ok (pushPath_holding (a := a.push _) _)
  | selector =>
    cases h
    exact congrArg Except.ok (pushPath_holding _)
  | operator next =>
    cases h
    exact congrArg Except.ok (pushOperator_holding hr)
  | closeGroup => exact closeGroup_holding h
  | closeUnion => exact closeUnion_holding h
  | closeFilter | closeComputed => exact closeExpression_holding h
  | closeArgument => exact closeArgument_holding h
  | closeCall => exact closeCall_holding h

end Assembly

namespace Machine

variable {m n : Machine} {env : Env} {op : Operator}

/-- The machine with an operator that waits below all that waits in it. -/
def holding (op : Operator) (m : Machine) : Machine := { m with assembly := m.assembly.holding op }

theorem step_holding (hr : Rooted n.assembly.pending) (h : m.step env = .ok n) :
    (m.holding op).step env = .ok (n.holding op) := by
  have hm : m.modes ≠ [] := modes_ne_nil_of_step h
  have hsees : (m.holding op).SeesAs m := ⟨rfl, rfl, Assembly.hasOpenGroup_holding⟩
  obtain ⟨r, below, -, v, -, hx, hy⟩ := @step_move m _ env hsees hm
  rw [hx] at h
  rw [hy]
  cases v with
  | refuse => cases h
  | take past act modes =>
    rw [makes] at h
    split at h
    · next a ha =>
      cases h
      have hperform : act.perform (m.holding op).roots (m.holding op).assembly = .ok (a.holding op) :=
        Assembly.perform_holding hr ha
      have hskip : (m.holding op).skip (m.holding op).rest past = (m.skip m.rest past).holding op := by
        show (m.holding op).skip m.rest past = _
        cases past with
        | false => rfl
        | true => cases m.rest <;> rfl
      rw [makes, hperform, hskip]
      rfl
    · cases h

/-- Whatever is read while no operator joins it at the bottom, the operator goes on waiting there. -/
theorem Reaches.holding (h : Reaches env m n) (hr : Rooted n.assembly.pending) :
    Rooted m.assembly.pending ∧ Reaches env (m.holding op) (n.holding op) := by
  induction h with
  | refl m => exact ⟨hr, .refl _⟩
  | @step m j n hs _ ih =>
    obtain ⟨hj, hreach⟩ := ih hr
    obtain ⟨r, below, act, next, -, -, htook⟩ := step_turns hs
    exact ⟨(Assembly.perform_turn htook.performed).rooted hj, .step (step_holding hj hs) hreach⟩

end Machine

end PathQuery
