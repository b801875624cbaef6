import PathQuery.Proofs.Query.Chains

namespace PathQuery

/-- What has to be shown of a relation between computations. `Related chains x y` may use that no other chains than
`chains` are reached in `x` and `y`; a chain that is reached may be taken to be admitted. -/
structure Simulation (t u : Strategy) (s : Setting) where
  Admits : Chain → Prop
  Related : {α : Type} → List Chain → Eval α → Eval α → Prop
  pure : ∀ {α : Type} {chains : List Chain} (a : α), Related chains (Pure.pure a) (Pure.pure a)
  throw : ∀ {α : Type} {chains : List Chain} (e : EvalError), Related chains (throw e : Eval α) (throw e)
  bind : ∀ {α β : Type} {chains : List Chain} {x y : Eval α} {f g : α → Eval β},
    Related chains x y → (∀ a, Related chains (f a) (g a)) → Related chains (x >>= f) (y >>= g)
  call : ∀ {chains : List Chain} (f : Function) (arguments : List Value),
    Related chains (Eval.call f arguments) (Eval.call f arguments)
  root : ∀ {chains : List Chain} {c : Chain}, Admits c → c ∈ chains → pathChains c.path ⊆ chains →
    Related (pathChains c.path) (select t s c.path (.root s.doc)) (select u s c.path (.root s.doc)) →
    Related chains (t c.occurrence (select t s c.path (.root s.doc)))
      (u c.occurrence (select u s c.path (.root s.doc)))

namespace Simulation

variable {t u : Strategy} {s : Setting} (S : Simulation t u s) {chains : List Chain}

theorem mapM_related {α β : Type} {f g : α → Eval β} (h : ∀ a, S.Related chains (f a) (g a)) (as : List α) :
    S.Related chains (as.mapM f) (as.mapM g) := by
  induction as with
  | nil => exact S.pure []
  | cons a as ih =>
    rw [List.mapM_cons, List.mapM_cons]
    refine S.bind (h a) ?_
    intro b
    refine S.bind ih ?_
    intro bs
    exact S.pure _

theorem collect_related {go go' : Node → Eval Matches} (h : ∀ n, S.Related chains (go n) (go' n)) (ns : List Node) :
    S.Related chains (Eval.collect go ns) (Eval.collect go' ns) := by
  refine S.bind (S.mapM_related h ns) ?_
  intro ms
  exact S.pure _

theorem goOn_related {go go' : Node → Eval Matches} (h : ∀ n, S.Related chains (go n) (go' n)) (kind : Kind)
    (n : Option Node) : S.Related chains (Eval.goOn go kind n) (Eval.goOn go' kind n) := by
  cases n with
  | none => exact S.pure _
  | some n => exact h n

theorem result_related (stack : List Operand) :
    S.Related chains (Operand.result stack) (Operand.result stack) := by
  cases stack with
  | nil => exact S.throw _
  | cons top stack => exact S.pure _

/-- The chains of a part of a query are reached and admitted. -/
structure Covers (chains part : List Chain) : Prop where
  reached : part ⊆ chains
  admitted : ∀ c ∈ part, S.Admits c

variable {S}

theorem Covers.append {part rest : List Chain} (h : S.Covers chains (part ++ rest)) :
    S.Covers chains part ∧ S.Covers chains rest := by
  constructor
  · constructor
    · intro c hc
      exact h.reached (List.mem_append_left _ hc)
    · intro c hc
      exact h.admitted c (List.mem_append_left _ hc)
  · constructor
    · intro c hc
      exact h.reached (List.mem_append_right _ hc)
    · intro c hc
      exact h.admitted c (List.mem_append_right _ hc)

/-- A chain behind an occurrence reaches no others than its own. -/
theorem Covers.self {part : List Chain} (h : S.Covers chains part) : S.Covers part part :=
  ⟨fun _ hc => hc, h.admitted⟩

mutual

/-- One step of a path, given the relation for the rest of the path and for an occurrence of the root. -/
theorem follow_related : ∀ (x : Selector) (path : List Selector) {chains : List Chain}
    {go go' : Node → Eval Matches} (kind : Kind) (n : Node), S.Covers chains (x.chains path) →
    (∀ n, S.Related chains (go n) (go' n)) →
    (∀ i, x = .root i → S.Related chains (t i (go (.root s.doc))) (u i (go' (.root s.doc)))) →
    S.Related chains (follow t s x go kind n) (follow u s x go' kind n)
  | .root i, _, _, _, _, _, _, _, _, hr => by
    simpa only [follow] using hr i rfl
  | .current, _, _, _, _, _, n, _, hg, _ => by
    simpa only [follow] using hg n
  | .member name, _, _, _, _, kind, n, _, hg, _ => by
    simpa only [follow] using S.goOn_related hg kind _
  | .index i, _, _, _, _, kind, n, _, hg, _ => by
    simpa only [follow] using S.goOn_related hg kind _
  | .wildcard, _, _, _, _, _, n, _, hg, _ => by
    simpa only [follow] using S.collect_related hg _
  | .descend, _, _, _, _, _, n, _, hg, _ => by
    simpa only [follow] using S.collect_related hg _
  | .slice range, _, _, _, _, _, n, _, hg, _ => by
    simpa only [follow] using S.collect_related hg _
  | .union branches, _, _, _, _, _, n, hc, hg, _ => by
    simp only [follow]
    refine S.bind (selectBranches_related branches n (by simpa only [Selector.chains] using hc) hg) ?_
    intro ns
    exact S.pure _
  | .filter test, _, _, _, _, _, n, hc, hg, _ => by
    simp only [follow]
    refine S.collect_related ?_ _
    intro k
    refine S.bind (run_related test k [] (by simpa only [Selector.chains] using hc)) ?_
    intro stack
    refine S.bind (S.result_related stack) ?_
    intro found
    cases found.holds with
    | true => exact hg k
    | false => exact S.pure _
  | .computed key, _, _, _, _, kind, n, hc, hg, _ => by
    simp only [follow]
    refine S.bind (run_related key n [] (by simpa only [Selector.chains] using hc)) ?_
    intro stack
    refine S.bind (S.result_related stack) ?_
    intro found
    split
    · exact S.goOn_related hg kind _
    · exact S.pure _
  | .call f arguments, _, _, _, _, _, n, hc, hg, _ => by
    simp only [follow]
    refine S.bind (runArguments_related arguments n (by simpa only [Selector.chains] using hc)) ?_
    intro values
    refine S.bind (S.call f values) ?_
    intro v
    exact hg _

theorem select_related : ∀ (path : List Selector) {chains : List Chain} (n : Node),
    S.Covers chains (pathChains path) → S.Related chains (select t s path n) (select u s path n)
  | [], _, n, _ => by
    simp only [select]
    exact S.pure _
  | x :: path, chains, n, hc => by
    rw [pathChains] at hc
    obtain ⟨hx, hp⟩ := hc.append
    simp only [select]
    refine follow_related x path _ n hx (fun k => select_related path k hp) ?_
    intro i hi
    subst hi
    have hm : (⟨i, path⟩ : Chain) ∈ Selector.chains (.root i) path := by simp [Selector.chains]
    exact S.root (c := ⟨i, path⟩) (hx.admitted _ hm) (hx.reached hm) hp.reached
      (select_related path (.root s.doc) hp.self)

theorem selectBranches_related : ∀ (branches : List (List Instr)) {chains : List Chain}
    {go go' : Node → Eval Matches} (n : Node), S.Covers chains (branchChains branches) →
    (∀ n, S.Related chains (go n) (go' n)) →
    S.Related chains (selectBranches t s branches n go) (selectBranches u s branches n go')
  | [], _, _, _, _, _, _ => by
    simp only [selectBranches]
    exact S.pure _
  | branch :: branches, _, _, _, n, hc, hg => by
    rw [branchChains] at hc
    obtain ⟨hb, hr⟩ := hc.append
    simp only [selectBranches]
    refine S.bind (run_related branch n [] hb) ?_
    intro stack
    refine S.bind (S.result_related stack) ?_
    intro starts
    refine S.bind (S.collect_related hg _) ?_
    intro found
    refine S.bind (selectBranches_related branches n hr hg) ?_
    intro others
    exact S.pure _

theorem runArguments_related : ∀ (arguments : List (List Instr)) {chains : List Chain} (n : Node),
    S.Covers chains (branchChains arguments) →
    S.Related chains (runArguments t s arguments n) (runArguments u s arguments n)
  | [], _, _, _ => by
    simp only [runArguments]
    exact S.pure _
  | argument :: arguments, _, n, hc => by
    rw [branchChains] at hc
    obtain ⟨ha, hr⟩ := hc.append
    simp only [runArguments]
    refine S.bind (run_related argument n [] ha) ?_
    intro stack
    refine S.bind (S.result_related stack) ?_
    intro found
    refine S.bind (runArguments_related arguments n hr) ?_
    intro values
    exact S.pure _

theorem execute_related : ∀ (i : Instr) {chains : List Chain} (n : Node) (stack : List Operand),
    S.Covers chains i.chains → S.Related chains (execute t s i n stack) (execute u s i n stack)
  | .root, _, _, _, _ => by
    simp only [execute]
    exact S.pure _
  | .current, _, _, _, _ => by
    simp only [execute]
    exact S.pure _
  | .literal v, _, _, _, _ => by
    simp only [execute]
    exact S.pure _
  | .path path, _, n, [], _ => by
    simp only [execute]
    exact S.throw _
  | .path path, _, n, top :: stack, hc => by
    simp only [execute]
    refine S.bind (select_related path _ (by simpa only [Instr.chains] using hc)) ?_
    intro found
    exact S.pure _
  | .unary op, _, n, [], _ => by
    simp only [execute]
    exact S.throw _
  | .unary op, _, n, top :: stack, _ => by
    simp only [execute]
    exact S.pure _
  | .binary op, _, n, [], _ => by
    simp only [execute]
    exact S.throw _
  | .binary op, _, n, [right], _ => by
    simp only [execute]
    exact S.throw _
  | .binary op, _, n, right :: left :: stack, _ => by
    simp only [execute]
    exact S.pure _

theorem run_related : ∀ (p : List Instr) {chains : List Chain} (n : Node) (stack : List Operand),
    S.Covers chains (programChains p) → S.Related chains (run t s p n stack) (run u s p n stack)
  | [], _, _, _, _ => by
    simp only [run]
    exact S.pure _
  | i :: is, _, n, stack, hc => by
    rw [programChains] at hc
    obtain ⟨hi, hr⟩ := hc.append
    simp only [run]
    refine S.bind (execute_related i n stack hi) ?_
    intro stack
    exact run_related is n stack hr

end

theorem evaluate_related (p : Program) (n : Node) (hc : S.Covers chains (programChains p)) :
    S.Related chains (evaluate t s p n) (evaluate u s p n) := by
  refine S.bind (run_related p n [] hc) ?_
  intro stack
  exact S.result_related stack

end Simulation

end PathQuery
