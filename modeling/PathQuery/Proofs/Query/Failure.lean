import PathQuery.Proofs.Query.Balance
import PathQuery.Proofs.Query.Calls
import PathQuery.Proofs.Query.Postorder
import PathQuery.Query.Edit
import PathQuery.Standard

namespace PathQuery

open Eval Strategy

section Stack

variable {t : Strategy} {s : Setting} {n : Node} {σ : Session}

/-- An instruction takes its operands from the stack and leaves one value. -/
theorem execute_length {i : Instr} {stack stack' : List Operand}
    (h : resultIn σ (execute t s i n stack) = .ok stack') : i.operands ≤ stack.length ∧
      stack'.length = stack.length - i.operands + 1 := by
  cases i with
  | root | current | literal v =>
    simp only [execute] at h
    cases h
    exact ⟨Nat.zero_le _, rfl⟩
  | path steps =>
    rcases stack with _ | ⟨top, stack⟩
    · simp only [execute] at h
      cases h
    · simp only [execute] at h
      cases hf : resultIn σ (select t s steps (top.toNode n.location)) with
      | error e =>
        rw [resultIn_bind_error hf] at h
        cases h
      | ok found =>
        rw [resultIn_bind_ok hf] at h
        cases h
        exact ⟨Nat.succ_pos _, rfl⟩
  | unary op =>
    rcases stack with _ | ⟨top, stack⟩ <;> simp only [execute] at h <;> cases h
    exact ⟨Nat.succ_pos _, rfl⟩
  | binary op =>
    rcases stack with _ | ⟨right, _ | ⟨left, stack⟩⟩ <;> simp only [execute] at h <;> cases h
    exact ⟨Nat.le_add_left 2 _, rfl⟩

/-- The height of a program is that of the stack behind it. -/
theorem run_length {p : Program} {stack stack' : List Operand} {m k : Nat} (hm : stack.length = m)
    (hp : Program.height? m p = some k) (h : resultIn σ (run t s p n stack) = .ok stack') : stack'.length = k := by
  induction p generalizing σ stack m with
  | nil =>
    cases hp
    rw [run] at h
    cases h
    exact hm
  | cons i is ih =>
    rw [run] at h
    rw [Program.height?] at hp
    cases hi : resultIn σ (execute t s i n stack) with
    | error e =>
      rw [resultIn_bind_error hi] at h
      cases h
    | ok next =>
      obtain ⟨ho, hl⟩ := execute_length hi
      rw [resultIn_bind_ok hi] at h
      rw [hm] at ho hl
      rw [if_pos ho] at hp
      exact ih hl hp h

/-- Of a program whose height is known no instruction takes more values than there are. -/
theorem run_operands {before behind : Program} {i : Instr} {stack : List Operand} {k : Nat}
    (hp : Program.height? 0 (before ++ i :: behind) = some k)
    (h : resultIn σ (run t s before n []) = .ok stack) : i.operands ≤ stack.length := by
  rw [Program.height?_append] at hp
  obtain ⟨m, hm, hi⟩ := Option.bind_eq_some_iff.1 hp
  have hl : stack.length = m := run_length List.length_nil hm h
  rw [Program.height?] at hi
  split at hi
  · next ho =>
    rw [hl]
    exact ho
  · cases hi

end Stack

/-- A function is called somewhere in a query, at any depth. -/
def Program.HasCall (q : Program) (f : Function) : Prop :=
  ∃ path arguments, q.HasPath path ∧ .call f arguments ∈ path

/-- If a computation fails, the last thing it has done is a call of a function of the query, which failed likewise. -/
def Blames (q : Program) {α : Type} (x : Eval α) : Prop :=
  ∀ σ e, resultIn σ x = .error e → ∃ c, (after σ x).events.head? = some (.call c) ∧ q.HasCall c.function ∧
    c.function.body c.arguments = .error e

namespace Blames

variable {q : Program} {α β : Type}

theorem pure (a : α) : Blames q (Pure.pure a : Eval α) := by
  intro σ e h
  cases h

theorem bind {x : Eval α} {f : α → Eval β} (hx : Blames q x)
    (hf : ∀ σ a, resultIn σ x = .ok a → Blames q (f a)) : Blames q (x >>= f) := by
  intro σ e h
  cases ha : resultIn σ x with
  | ok a =>
    rw [resultIn_bind_ok ha] at h
    rw [after_bind_ok ha]
    exact hf σ a ha (after σ x) e h
  | error e' =>
    rw [resultIn_bind_error ha] at h
    rw [after_bind_error ha]
    cases h
    exact hx σ e ha

theorem call {f : Function} (hf : q.HasCall f) (arguments : List Value) : Blames q (Eval.call f arguments) := by
  intro σ e h
  rw [resultIn_call] at h
  rw [after_call]
  exact ⟨⟨f, arguments⟩, rfl, hf, h⟩

theorem mapM {f : α → Eval β} (hf : ∀ a, Blames q (f a)) (as : List α) : Blames q (as.mapM f) := by
  induction as with
  | nil => exact pure []
  | cons a as ih =>
    rw [List.mapM_cons]
    refine bind (hf a) ?_
    intro _ b _
    refine bind ih ?_
    intro _ bs _
    exact pure (b :: bs)

variable {go : Node → Eval Matches}

theorem collect (hg : ∀ n, Blames q (go n)) (ns : List Node) : Blames q (Eval.collect go ns) := by
  refine bind (mapM hg ns) ?_
  intro _ ms _
  exact pure _

theorem goOn (hg : ∀ n, Blames q (go n)) (kind : Kind) (n : Option Node) : Blames q (Eval.goOn go kind n) := by
  cases n with
  | none => exact pure _
  | some n => exact hg n

theorem result {stack : List Operand} (h : stack.length = 1) : Blames q (Operand.result stack) := by
  cases stack with
  | nil => cases h
  | cons top stack => exact pure _

theorem once {x : Eval Matches} (hx : Blames q x) (i : Nat) : Blames q (once i x) := by
  intro σ e h
  cases hk : σ.root? i with
  | some found =>
    rw [(once_known hk).1] at h
    cases h
  | none =>
    cases hf : resultIn (logged σ (.enter i)) x with
    | ok found =>
      rw [(once_ok hk (resultIn_anew.trans hf)).1] at h
      cases h
    | error e' =>
      obtain ⟨hr, ha⟩ := once_error hk (resultIn_anew.trans hf)
      rw [hr] at h
      rw [ha, after_anew_error hf]
      cases h
      exact hx _ e hf

end Blames

section Evaluator

variable {q : Program} {s : Setting}

/-- A program of a query does not fail for want of a result. -/
theorem bind_result {p : Program} {n : Node} {α : Type} {f : Matches → Eval α} (hq : q.Balanced) (hp : q.Has p)
    (hrun : ∀ k, Program.height? 0 p = some k → Blames q (run .once s p n [])) (hf : ∀ found, Blames q (f found)) :
    Blames q (run .once s p n [] >>= fun stack => Operand.result stack >>= f) := by
  refine (hrun 1 (hq.has hp).height).bind ?_
  intro σ stack hstack
  have hl : stack.length = 1 := run_length List.length_nil (hq.has hp).height hstack
  refine (Blames.result hl).bind ?_
  intro _ found _
  exact hf found

mutual

theorem follow_blames (hq : q.Balanced) : ∀ (x : Selector) {path : List Selector} {go : Node → Eval Matches}
    (kind : Kind) (n : Node),
    q.HasPath path → x ∈ path → (∀ n, Blames q (go n)) → Blames q (follow .once s x go kind n)
  | .root i, _, _, _, _, _, _, hg => by
    rw [follow]
    exact (hg _).once i
  | .current, _, _, _, n, _, _, hg => by
    rw [follow]
    exact hg n
  | .member name, _, _, kind, n, _, _, hg => by
    rw [follow]
    exact Blames.goOn hg kind _
  | .index i, _, _, kind, n, _, _, hg => by
    rw [follow]
    exact Blames.goOn hg kind _
  | .wildcard, _, _, _, n, _, _, hg => by
    rw [follow]
    exact Blames.collect hg _
  | .descend, _, _, _, n, _, _, hg => by
    rw [follow]
    exact Blames.collect hg _
  | .slice range, _, _, _, n, _, _, hg => by
    rw [follow]
    exact Blames.collect hg _
  | .union branches, _, _, _, n, ho, hx, hg => by
    rw [follow]
    refine (selectBranches_blames hq branches n (fun p hp => .inner ho hx hp) hg).bind ?_
    intro _ ns _
    exact Blames.pure _
  | .filter test, _, _, _, n, ho, hx, hg => by
    have ht : q.Has test := .inner ho hx (List.mem_singleton_self test)
    rw [follow]
    refine Blames.collect ?_ _
    intro k
    refine bind_result hq ht (fun height => run_blames hq test k [] height fun _ => ht.path) ?_
    intro found
    split
    · exact hg k
    · exact Blames.pure _
  | .computed key, _, _, kind, n, ho, hx, hg => by
    have hk : q.Has key := .inner ho hx (List.mem_singleton_self key)
    rw [follow]
    refine bind_result hq hk (fun height => run_blames hq key n [] height fun _ => hk.path) ?_
    intro found
    split
    · exact Blames.goOn hg kind _
    · exact Blames.pure _
  | .call f arguments, path, _, _, n, ho, hx, hg => by
    rw [follow]
    refine (runArguments_blames hq arguments n fun p hp => .inner ho hx hp).bind ?_
    intro _ values _
    refine (Blames.call ⟨path, arguments, ho, hx⟩ values).bind ?_
    intro _ v _
    exact hg _

theorem select_blames (hq : q.Balanced) : ∀ (rest : List Selector) {path : List Selector} (n : Node),
    q.HasPath path → rest ⊆ path →
    Blames q (select .once s rest n)
  | [], _, n, _, _ => by
    rw [select]
    exact Blames.pure _
  | x :: rest, _, n, ho, hr => by
    rw [select]
    exact follow_blames hq x _ n ho (hr List.mem_cons_self) fun k =>
      select_blames hq rest k ho fun _ hy => hr (List.mem_cons_of_mem _ hy)

theorem selectBranches_blames (hq : q.Balanced) : ∀ (branches : List (List Instr)) {go : Node → Eval Matches}
    (n : Node),
    (∀ p ∈ branches, q.Has p) → (∀ n, Blames q (go n)) → Blames q (selectBranches .once s branches n go)
  | [], _, _, _, _ => by
    rw [selectBranches]
    exact Blames.pure _
  | branch :: branches, _, n, hb, hg => by
    have hbranch : q.Has branch := hb branch List.mem_cons_self
    rw [selectBranches]
    refine bind_result hq hbranch (fun height => run_blames hq branch n [] height fun _ => hbranch.path) ?_
    intro starts
    refine (Blames.collect hg _).bind ?_
    intro _ found _
    refine (selectBranches_blames hq branches n (fun p hp => hb p (List.mem_cons_of_mem _ hp)) hg).bind ?_
    intro _ others _
    exact Blames.pure _

theorem runArguments_blames (hq : q.Balanced) : ∀ (arguments : List (List Instr)) (n : Node),
    (∀ p ∈ arguments, q.Has p) →
    Blames q (runArguments .once s arguments n)
  | [], _, _ => by
    rw [runArguments]
    exact Blames.pure _
  | argument :: arguments, n, ha => by
    have hargument : q.Has argument := ha argument List.mem_cons_self
    rw [runArguments]
    refine bind_result hq hargument (fun height => run_blames hq argument n [] height fun _ => hargument.path) ?_
    intro found
    refine (runArguments_blames hq arguments n fun p hp => ha p (List.mem_cons_of_mem _ hp)).bind ?_
    intro _ values _
    exact Blames.pure _

theorem execute_blames (hq : q.Balanced) : ∀ (i : Instr) (n : Node) (stack : List Operand),
    (∀ path, i = .path path → q.HasPath path) → i.operands ≤ stack.length → Blames q (execute .once s i n stack)
  | .root, _, _, _, _ | .current, _, _, _, _ | .literal _, _, _, _, _ => by
    rw [execute]
    exact Blames.pure _
  | .path path, _, [], _, ho | .unary _, _, [], _, ho | .binary _, _, [], _, ho => by cases ho
  | .binary _, _, [_], _, ho => by
    have hlt : 2 ≤ 1 := ho
    omega
  | .path path, n, top :: stack, hi, _ => by
    rw [execute]
    refine (select_blames hq path _ (hi path rfl) fun _ hx => hx).bind ?_
    intro _ found _
    exact Blames.pure _
  | .unary op, n, top :: stack, _, _ => by
    rw [execute]
    exact Blames.pure _
  | .binary op, n, right :: left :: stack, _, _ => by
    rw [execute]
    exact Blames.pure _

theorem run_blames (hq : q.Balanced) : ∀ (p : List Instr) (n : Node) (stack : List Operand) (k : Nat),
    (∀ path, .path path ∈ p → q.HasPath path) → Program.height? stack.length p = some k →
    Blames q (run .once s p n stack)
  | [], _, _, _, _, _ => by
    rw [run]
    exact Blames.pure _
  | i :: is, n, stack, k, hi, hk => by
    rw [Program.height?] at hk
    split at hk
    · next ho =>
      rw [run]
      have hpath : ∀ path, i = .path path → q.HasPath path := by
        intro path hp
        subst hp
        exact hi path List.mem_cons_self
      refine (execute_blames hq i n stack hpath ho).bind ?_
      intro σ next hnext
      rw [← (execute_length hnext).2] at hk
      exact run_blames hq is n next k (fun path hp => hi path (List.mem_cons_of_mem _ hp)) hk
    · cases hk

end

/-- A program of a query fails only with the error of the call before, whatever has been evaluated already. -/
theorem evaluate_blames (hq : q.Balanced) {p : Program} (hp : q.Has p) (n : Node) :
    Blames q (evaluate .once s p n) := by
  refine (run_blames hq p n [] 1 (fun _ => hp.path) (hq.has hp).height).bind ?_
  intro σ stack hstack
  exact Blames.result (run_length List.length_nil (hq.has hp).height hstack)

end Evaluator

/-- If an answer is an error, it is the error of the last call that was made, which calls a function of the query. -/
def Answer.FailsByCall {α : Type} (q : Program) (a : Answer α) : Prop :=
  ∀ e, a.result = .error e → ∃ c, a.calls.getLast? = some c ∧ q.HasCall c.function ∧
    c.function.body c.arguments = .error e

theorem Answer.FailsByCall.map {α β : Type} {q : Program} {a : Answer α} (h : a.FailsByCall q) (f : α → β) :
    (a.map f).FailsByCall q := by
  intro e he
  cases ha : a.result with
  | error e' =>
    have hmap : (a.map f).result = .error e' := congrArg (Except.map f) ha
    rw [hmap] at he
    cases he
    exact h e ha
  | ok v =>
    have hmap : (a.map f).result = .ok (f v) := congrArg (Except.map f) ha
    rw [hmap] at he
    cases he

/-- An answer that needs a call to fail is no error where there is none. -/
theorem Answer.FailsByCall.succeeds {α : Type} {q : Program} {a : Answer α} (h : a.FailsByCall q)
    (hq : ∀ f, ¬q.HasCall f) : ∃ v, a.result = .ok v := by
  cases ha : a.result with
  | ok v => exact ⟨v, rfl⟩
  | error e =>
    obtain ⟨c, -, hc, -⟩ := h e ha
    exact absurd hc (hq c.function)

/-- A call that is the last event is the last call. -/
theorem Session.head?_calls {σ : Session} {c : Call} (h : σ.events.head? = some (.call c)) :
    σ.calls.head? = some c := by
  obtain ⟨rest, hrest⟩ := List.head?_eq_some_iff.1 h
  rw [Session.calls, hrest]
  rfl

namespace Query

variable {env : Env} {text : String} {q : Query}

theorem search_failsByCall (h : compileWith env text = .ok q) (keep : Bool) (doc : Value) :
    (q.search keep doc).FailsByCall q.program := by
  intro e he
  obtain ⟨c, hc, hcall, hbody⟩ := evaluate_blames (s := ⟨doc, keep⟩) (balanced h) .self (.root doc) .empty e he
  refine ⟨c, ?_, hcall, hbody⟩
  rw [search, searchBy_calls, List.getLast?_reverse]
  exact Session.head?_calls hc

/-- An answer is an error only if a call has returned this error. No program in a query, at any depth, fails otherwise,
takes a value that is not on its stack or leaves none or several; and a query without calls always has an answer. -/
theorem failures_come_from_calls (h : compileWith env text = .ok q) (doc : Value) :
    ((∀ f, (q.evaluate f doc).FailsByCall q.program) ∧ (∀ f, (q.matchesOf f doc).FailsByCall q.program) ∧
      (q.locations doc).FailsByCall q.program ∧ (∀ f, (q.update f doc).FailsByCall q.program) ∧
      (q.remove doc).FailsByCall q.program) ∧
    (∀ p, q.program.Has p → ∀ s n σ,
      (∀ e, resultIn σ (PathQuery.evaluate .once s p n) = .error e →
        ∃ c, (after σ (PathQuery.evaluate .once s p n)).events.head? = some (.call c) ∧
          c.function.body c.arguments = .error e) ∧
      (∀ before i behind stack, p = before ++ i :: behind → resultIn σ (run .once s before n []) = .ok stack →
        i.operands ≤ stack.length) ∧
      ∀ stack, resultIn σ (run .once s p n []) = .ok stack → stack.length = 1) ∧
    ((∀ f, ¬q.program.HasCall f) →
      (∀ f, ∃ v, (q.evaluate f doc).result = .ok v) ∧ (∀ f, ∃ ps, (q.matchesOf f doc).result = .ok ps) ∧
      (∃ ls, (q.locations doc).result = .ok ls) ∧ (∀ f, ∃ edited, (q.update f doc).result = .ok edited) ∧
      ∃ removed, (q.remove doc).result = .ok removed) := by
  have hnodes : ∀ f, (q.nodes f doc).FailsByCall q.program := fun f => (search_failsByCall h _ doc).map _
  have hevaluate : ∀ f, (q.evaluate f doc).FailsByCall q.program := fun f => (hnodes f).map _
  have hmatches : ∀ f, (q.matchesOf f doc).FailsByCall q.program := fun f => (hnodes _).map _
  have hlocations : (q.locations doc).FailsByCall q.program := (hnodes _).map _
  have hdocument : (q.documentLocations doc).FailsByCall q.program := (hnodes _).map _
  have hupdate : ∀ f, (q.update f doc).FailsByCall q.program := fun f => hdocument.map _
  have hremove : (q.remove doc).FailsByCall q.program := hdocument.map _
  refine ⟨⟨hevaluate, hmatches, hlocations, hupdate, hremove⟩, ?_, ?_⟩
  · intro p hp s n σ
    have hheight := ((balanced h).has hp).height
    refine ⟨?_, ?_, ?_⟩
    · intro e he
      obtain ⟨c, hc, -, hbody⟩ := evaluate_blames (balanced h) hp n σ e he
      exact ⟨c, hc, hbody⟩
    · intro before i behind stack he hstack
      subst he
      exact run_operands hheight hstack
    · intro stack hstack
      exact run_length List.length_nil hheight hstack
  · intro hq
    exact ⟨fun f => (hevaluate f).succeeds hq, fun f => (hmatches f).succeeds hq, hlocations.succeeds hq,
      fun f => (hupdate f).succeeds hq, hremove.succeeds hq⟩

/-- The keys of `null` are `null`, but those of an array are an error. -/
theorem failures_come_from_calls_keys :
    ∃ q c, compileWith (.standard []) "$[?keys(@)]" = .ok q ∧
      (q.evaluate .plain (.array [.null, .array []])).result = .error (.badArgument "keys" "expected an object") ∧
      (q.evaluate .plain (.array [.null, .array []])).calls.getLast? = some c ∧
      c.function.body c.arguments = .error (.badArgument "keys" "expected an object") := by
  have h : compileWith (.standard []) "$[?keys(@)]" = .ok ⟨[.root, .path [.root 0, .filter [.current,
      .path [.call (Library.unary "keys" Library.keys) [[.current, .path [.current]]]]]]]⟩ :=
    compileWith_of_runFor (k := 40) rfl
  obtain ⟨c, hc, -, hbody⟩ := (failures_come_from_calls h (.array [.null, .array []])).1.1 .plain _ rfl
  exact ⟨_, c, h, rfl, hc, hbody⟩

end Query

end PathQuery
