import PathQuery.Proofs.Query.CallNodes
import PathQuery.Proofs.Query.Calls
import PathQuery.Proofs.Query.Threads

namespace PathQuery

open Eval Strategy

/-- What a program gives as an argument at a node, whatever has been evaluated before. -/
def Program.Gives (s : Setting) (n : Node) (p : Program) (v : Value) : Prop :=
  ∃ found : Matches, Returns (evaluate .anew s p n) found ∧ v = (found.toNode n.location).value

/-- A call of a query, with what its arguments give at a node. -/
def Call.IsOf (q : Program) (s : Setting) (c : Call) : Prop :=
  ∃ ps n, ⟨c.function, ps⟩ ∈ q.callNodes ∧ List.Forall₂ (Program.Gives s n) ps c.arguments

theorem Eval.resultIn_bind_eq_ok {α β : Type} {x : Eval α} {f : α → Eval β} {σ : Session} {b : β}
    (h : resultIn σ (x >>= f) = .ok b) : ∃ a, resultIn σ x = .ok a ∧ resultIn (after σ x) (f a) = .ok b := by
  cases hx : resultIn σ x with
  | ok a => exact ⟨a, rfl, (resultIn_bind_ok hx).symm.trans h⟩
  | error e =>
    rw [resultIn_bind_error hx] at h
    cases h

theorem evaluate_steady {t : Strategy} (ht : t.Direct) {s : Setting} (p : Program) (n : Node) :
    Steady (evaluate t s p n) :=
  (run_steady ht p n).bind result_steady

/-- The values of arguments, one each, in their order. -/
theorem runArguments_gives {s : Setting} {ps : List Program} {n : Node} {σ : Session} {values : List Value}
    (h : resultIn σ (runArguments .anew s ps n) = .ok values) : List.Forall₂ (Program.Gives s n) ps values := by
  induction ps generalizing σ values with
  | nil =>
    rw [runArguments] at h
    cases h
    exact .nil
  | cons p ps ih =>
    rw [runArguments] at h
    obtain ⟨stack, hstack, h⟩ := resultIn_bind_eq_ok h
    obtain ⟨found, hfound, h⟩ := resultIn_bind_eq_ok h
    obtain ⟨others, hothers, h⟩ := resultIn_bind_eq_ok h
    cases h
    have hgives : resultIn σ (evaluate .anew s p n) = .ok found := (resultIn_bind_ok hstack).trans hfound
    exact .cons ⟨found, (evaluate_steady direct_anew p n).returns hgives, rfl⟩ (ih hothers)

/-- A computation makes no other calls than some. -/
def Makes (P : Call → Prop) {α : Type} (x : Eval α) : Prop := ∀ σ, ∀ c ∈ (after σ x).calls, c ∈ σ.calls ∨ P c

namespace Makes

variable {P : Call → Prop} {α β : Type}

theorem pure (a : α) : Makes P (Pure.pure a : Eval α) := fun _ _ hc => .inl hc

theorem throw (e : EvalError) : Makes P (throw e : Eval α) := fun _ _ hc => .inl hc

theorem bind {x : Eval α} {f : α → Eval β} (hx : Makes P x)
    (hf : ∀ σ a, resultIn σ x = .ok a → Makes P (f a)) : Makes P (x >>= f) := by
  intro σ c hc
  cases ha : resultIn σ x with
  | ok a =>
    rw [after_bind_ok ha] at hc
    exact (hf σ a ha (after σ x) c hc).elim (hx σ c) .inr
  | error e =>
    rw [after_bind_error ha] at hc
    exact hx σ c hc

theorem call {f : Function} {values : List Value} (h : P ⟨f, values⟩) : Makes P (Eval.call f values) := by
  intro σ c hc
  rw [after_call, Session.calls_call] at hc
  rcases List.mem_cons.1 hc with rfl | hc
  · exact .inr h
  · exact .inl hc

theorem anew {x : Eval Matches} (hx : Makes P x) (i : Nat) : Makes P (Strategy.anew i x) := by
  intro σ c hc
  rw [calls_anew] at hc
  exact hx (logged σ (.enter i)) c hc

theorem mapM {f : α → Eval β} (hf : ∀ a, Makes P (f a)) (as : List α) : Makes P (as.mapM f) := by
  induction as with
  | nil => exact pure []
  | cons a as ih =>
    rw [List.mapM_cons]
    refine bind (hf a) ?_
    intro _ b _
    refine bind ih ?_
    intro _ bs _
    exact pure (b :: bs)

variable {go : Node → Eval Matches}

theorem collect (hg : ∀ n, Makes P (go n)) (ns : List Node) : Makes P (Eval.collect go ns) := by
  refine bind (mapM hg ns) ?_
  intro _ ms _
  exact pure _

theorem goOn (hg : ∀ n, Makes P (go n)) (kind : Kind) (n : Option Node) : Makes P (Eval.goOn go kind n) := by
  cases n with
  | none => exact pure _
  | some n => exact hg n

theorem result (stack : List Operand) : Makes P (Operand.result stack) := by
  cases stack with
  | nil => exact throw _
  | cons top stack => exact pure _

end Makes

section Evaluator

variable {q : Program} {s : Setting}

mutual

theorem follow_makes : ∀ (x : Selector) {path : List Selector} {go : Node → Eval Matches} (kind : Kind) (n : Node),
    q.HasPath path → x ∈ path → (∀ n, Makes (Call.IsOf q s) (go n)) → Makes (Call.IsOf q s) (follow .anew s x go kind n)
  | .root i, _, _, _, _, _, _, hg => by
    rw [follow]
    exact (hg _).anew i
  | .current, _, _, _, n, _, _, hg => by
    rw [follow]
    exact hg n
  | .member _, _, _, kind, _, _, _, hg | .index _, _, _, kind, _, _, _, hg => by
    rw [follow]
    exact Makes.goOn hg kind _
  | .wildcard, _, _, _, _, _, _, hg | .descend, _, _, _, _, _, _, hg | .slice _, _, _, _, _, _, _, hg => by
    rw [follow]
    exact Makes.collect hg _
  | .union branches, _, _, _, n, ho, hx, hg => by
    rw [follow]
    refine (selectBranches_makes branches n (fun p hp _ hm => .inside ho hx hp (.operand hm)) hg).bind ?_
    intro _ ns _
    exact Makes.pure _
  | .filter test, _, _, _, _, ho, hx, hg => by
    rw [follow]
    refine Makes.collect ?_ _
    intro k
    refine (run_makes test k [] fun _ hm => .inside ho hx (List.mem_singleton_self test) (.operand hm)).bind ?_
    intro _ stack _
    refine (Makes.result stack).bind ?_
    intro _ found _
    split
    · exact hg k
    · exact Makes.pure _
  | .computed key, _, _, kind, n, ho, hx, hg => by
    rw [follow]
    refine (run_makes key n [] fun _ hm => .inside ho hx (List.mem_singleton_self key) (.operand hm)).bind ?_
    intro _ stack _
    refine (Makes.result stack).bind ?_
    intro _ found _
    split
    · exact Makes.goOn hg kind _
    · exact Makes.pure _
  | .call f arguments, _, _, _, n, ho, hx, hg => by
    rw [follow]
    refine (runArguments_makes arguments n fun p hp _ hm => .inside ho hx hp (.operand hm)).bind ?_
    intro σ values hvalues
    refine (Makes.call ⟨arguments, n, ho.mem_callNodes hx, runArguments_gives hvalues⟩).bind ?_
    intro _ v _
    exact hg _

theorem select_makes : ∀ (rest : List Selector) {path : List Selector} (n : Node), q.HasPath path → rest ⊆ path →
    Makes (Call.IsOf q s) (select .anew s rest n)
  | [], _, n, _, _ => by
    rw [select]
    exact Makes.pure _
  | x :: rest, _, n, ho, hr => by
    rw [select]
    exact follow_makes x _ n ho (hr List.mem_cons_self) fun k =>
      select_makes rest k ho fun _ hy => hr (List.mem_cons_of_mem _ hy)

theorem selectBranches_makes : ∀ (branches : List (List Instr)) {go : Node → Eval Matches} (n : Node),
    (∀ p ∈ branches, ∀ path, .path path ∈ p → q.HasPath path) → (∀ n, Makes (Call.IsOf q s) (go n)) →
    Makes (Call.IsOf q s) (selectBranches .anew s branches n go)
  | [], _, _, _, _ => by
    rw [selectBranches]
    exact Makes.pure _
  | branch :: branches, _, n, hb, hg => by
    rw [selectBranches]
    refine (run_makes branch n [] (hb branch List.mem_cons_self)).bind ?_
    intro _ stack _
    refine (Makes.result stack).bind ?_
    intro _ starts _
    refine (Makes.collect hg _).bind ?_
    intro _ found _
    refine (selectBranches_makes branches n (fun p hp => hb p (List.mem_cons_of_mem _ hp)) hg).bind ?_
    intro _ others _
    exact Makes.pure _

theorem runArguments_makes : ∀ (arguments : List (List Instr)) (n : Node),
    (∀ p ∈ arguments, ∀ path, .path path ∈ p → q.HasPath path) →
    Makes (Call.IsOf q s) (runArguments .anew s arguments n)
  | [], _, _ => by
    rw [runArguments]
    exact Makes.pure _
  | argument :: arguments, n, ha => by
    rw [runArguments]
    refine (run_makes argument n [] (ha argument List.mem_cons_self)).bind ?_
    intro _ stack _
    refine (Makes.result stack).bind ?_
    intro _ found _
    refine (runArguments_makes arguments n fun p hp => ha p (List.mem_cons_of_mem _ hp)).bind ?_
    intro _ values _
    exact Makes.pure _

theorem execute_makes : ∀ (i : Instr) (n : Node) (stack : List Operand), (∀ path, i = .path path → q.HasPath path) →
    Makes (Call.IsOf q s) (execute .anew s i n stack)
  | .root, _, _, _ | .current, _, _, _ | .literal _, _, _, _ => by
    rw [execute]
    exact Makes.pure _
  | .path _, _, [], _ | .unary _, _, [], _ | .binary _, _, [], _ | .binary _, _, [_], _ => by
    simp only [execute]
    exact Makes.throw _
  | .path path, n, top :: stack, hi => by
    rw [execute]
    refine (select_makes path _ (hi path rfl) fun _ hx => hx).bind ?_
    intro _ found _
    exact Makes.pure _
  | .unary _, _, _ :: _, _ | .binary _, _, _ :: _ :: _, _ => by
    rw [execute]
    exact Makes.pure _

theorem run_makes : ∀ (p : List Instr) (n : Node) (stack : List Operand), (∀ path, .path path ∈ p → q.HasPath path) →
    Makes (Call.IsOf q s) (run .anew s p n stack)
  | [], _, _, _ => by
    rw [run]
    exact Makes.pure _
  | i :: is, n, stack, hp => by
    rw [run]
    refine (execute_makes i n stack fun path hi => hp path (hi ▸ List.mem_cons_self)).bind ?_
    intro _ next _
    exact run_makes is n next fun path hm => hp path (List.mem_cons_of_mem _ hm)

end

end Evaluator

/-- `x` agrees with `y`, and makes no calls that `y` does not make. -/
structure CallsWithin (s : Setting) (chains : List Chain) {α : Type} (x y : Eval α) : Prop where
  agrees : Agrees s chains x y
  keeps : KeepsCalls y
  calls : ∀ σ τ, σ.Faithful s chains → (after σ x).calls ⊆ σ.calls ++ (after τ y).calls

namespace CallsWithin

variable {s : Setting} {chains : List Chain} {α β : Type}

theorem bind {x y : Eval α} {f g : α → Eval β} (hx : CallsWithin s chains x y)
    (hf : ∀ a, CallsWithin s chains (f a) (g a)) : CallsWithin s chains (x >>= f) (y >>= g) := by
  refine ⟨hx.agrees.bind fun a => (hf a).agrees, hx.keeps.bind fun a => (hf a).keeps, ?_⟩
  intro σ τ hσ
  obtain ⟨he, ha⟩ := hx.agrees σ τ hσ
  cases h : resultIn τ y with
  | error e =>
    rw [after_bind_error (he.trans h), after_bind_error h]
    exact hx.calls σ τ hσ
  | ok a =>
    rw [after_bind_ok (he.trans h), after_bind_ok h]
    intro c hc
    rcases List.mem_append.1 ((hf a).calls _ (after τ y) ha hc) with hc | hc
    · rcases List.mem_append.1 (hx.calls σ τ hσ hc) with hc | hc
      · exact List.mem_append_left _ hc
      · exact List.mem_append_right _ ((hf a).keeps _ hc)
    · exact List.mem_append_right _ hc

theorem call (f : Function) (arguments : List Value) :
    CallsWithin s chains (Eval.call f arguments) (Eval.call f arguments) := by
  refine ⟨Agrees.call f arguments, KeepsCalls.call f arguments, ?_⟩
  intro σ τ _
  rw [after_call, after_call]
  simp

theorem root (hd : (chains.map (·.occurrence)).Nodup) {c : Chain} (hc : c ∈ chains) {x : Eval Matches}
    (hx : CallsWithin s chains x (select .anew s c.path (.root s.doc))) :
    CallsWithin s chains (once c.occurrence x) (anew c.occurrence (select .anew s c.path (.root s.doc))) := by
  refine ⟨Agrees.root hd hc hx.agrees, hx.keeps.anew _, ?_⟩
  intro σ τ hσ
  rw [calls_anew]
  cases hk : σ.root? c.occurrence with
  | some found =>
    rw [(once_known hk).2]
    exact List.subset_append_left _ _
  | none =>
    have hwithin := hx.calls (logged σ (.enter c.occurrence)) (logged τ (.enter c.occurrence)) hσ
    cases hf : resultIn (logged σ (.enter c.occurrence)) x with
    | error e =>
      rw [(once_error hk (resultIn_anew.trans hf)).2, calls_anew]
      exact hwithin
    | ok found =>
      rw [(once_ok hk (resultIn_anew.trans hf)).2, Session.calls_stored, calls_anew]
      exact hwithin

/-- Evaluating paths from the root once calls nothing that evaluating them anew does not call. -/
def simulation (s : Setting) {chains : List Chain} (hd : (chains.map (·.occurrence)).Nodup) :
    Simulation .once .anew s where
  Admits c := c ∈ chains
  Related _ x y := CallsWithin s chains x y
  pure _ := ⟨fun _ _ hσ => ⟨rfl, hσ⟩, fun _ => List.Subset.refl _, fun _ _ _ => List.subset_append_left _ _⟩
  throw _ := ⟨fun _ _ hσ => ⟨rfl, hσ⟩, fun _ => List.Subset.refl _, fun _ _ _ => List.subset_append_left _ _⟩
  bind := bind
  call := call
  root hc _ _ hx := root hd hc hx

end CallsWithin

/-- Every call that a search makes is a call of the query, with what its arguments give. -/
theorem Query.search_calls_isOf {env : Env} {text : String} {q : Query} (h : compileWith env text = .ok q)
    (keep : Bool) (doc : Value) : ∀ c ∈ (q.search keep doc).calls, c.IsOf q.program ⟨doc, keep⟩ := by
  intro c hc
  rw [search, searchBy_calls, List.mem_reverse] at hc
  have hwithin := (CallsWithin.simulation ⟨doc, keep⟩ (occurrences_nodup h)).evaluate_related q.program (.root doc)
    ⟨fun _ hc => hc, fun _ hc => hc⟩
  have hanew : c ∈ (after .empty (PathQuery.evaluate .anew ⟨doc, keep⟩ q.program (.root doc))).calls := by
    simpa using hwithin.calls .empty .empty Session.faithful_empty hc
  have hmakes : Makes (Call.IsOf q.program ⟨doc, keep⟩) (PathQuery.evaluate .anew ⟨doc, keep⟩ q.program (.root doc)) :=
    (run_makes q.program (.root doc) [] fun _ hp => .operand hp).bind fun _ stack _ => Makes.result stack
  simpa using hmakes .empty c hanew

end PathQuery
