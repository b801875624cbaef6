import PathQuery.Query.Evaluation

namespace PathQuery.Eval

variable {α β : Type}

def resultIn (σ : Session) (x : Eval α) : Except EvalError α := (x.run.run σ).1

/-- The session behind a computation. -/
def after (σ : Session) (x : Eval α) : Session := (x.run.run σ).2

variable {σ : Session} {x : Eval α} {f : α → Eval β} {a : α} {e : EvalError}

@[simp] theorem resultIn_pure : resultIn σ (pure a) = .ok a := rfl

@[simp] theorem after_pure : after σ (pure a) = σ := rfl

@[simp] theorem resultIn_throw : resultIn σ (throw e : Eval α) = .error e := rfl

@[simp] theorem after_throw : after σ (throw e : Eval α) = σ := rfl

theorem run_bind_ok (h : resultIn σ x = .ok a) : (x >>= f).run.run σ = (f a).run.run (after σ x) := by
  have hx : x.run.run σ = (.ok a, after σ x) := Prod.ext h rfl
  show (ExceptT.bindCont f (x.run.run σ).1).run (x.run.run σ).2 = _
  rw [hx]
  rfl

theorem run_bind_error (h : resultIn σ x = .error e) : (x >>= f).run.run σ = (.error e, after σ x) := by
  have hx : x.run.run σ = (.error e, after σ x) := Prod.ext h rfl
  show (ExceptT.bindCont f (x.run.run σ).1).run (x.run.run σ).2 = _
  rw [hx]
  rfl

theorem resultIn_bind_ok (h : resultIn σ x = .ok a) : resultIn σ (x >>= f) = resultIn (after σ x) (f a) :=
  congrArg Prod.fst (run_bind_ok h)

theorem after_bind_ok (h : resultIn σ x = .ok a) : after σ (x >>= f) = after (after σ x) (f a) :=
  congrArg Prod.snd (run_bind_ok h)

theorem resultIn_bind_error (h : resultIn σ x = .error e) : resultIn σ (x >>= f) = .error e :=
  congrArg Prod.fst (run_bind_error h)

theorem after_bind_error (h : resultIn σ x = .error e) : after σ (x >>= f) = after σ x :=
  congrArg Prod.snd (run_bind_error h)

/-- The session with one more event. -/
def logged (σ : Session) (e : Event) : Session := { σ with events := e :: σ.events }

@[simp] theorem logged_roots (σ : Session) (e : Event) : (logged σ e).roots = σ.roots := rfl

@[simp] theorem logged_root? (σ : Session) (e : Event) (i : Nat) : (logged σ e).root? i = σ.root? i := rfl

@[simp] theorem logged_events (σ : Session) (e : Event) : (logged σ e).events = e :: σ.events := rfl

theorem resultIn_call (f : Function) (arguments : List Value) :
    resultIn σ (call f arguments) = f.body arguments := by
  show ((liftM (f.body arguments) : Eval Value).run.run (logged σ (.call ⟨f, arguments⟩))).1 = _
  cases f.body arguments <;> rfl

theorem after_call (f : Function) (arguments : List Value) :
    after σ (call f arguments) = logged σ (.call ⟨f, arguments⟩) := by
  show ((liftM (f.body arguments) : Eval Value).run.run (logged σ (.call ⟨f, arguments⟩))).2 = _
  cases f.body arguments <;> rfl

end PathQuery.Eval

namespace PathQuery.Strategy

open Eval

variable {σ : Session} {x : Eval Matches} {i : Nat} {found : Matches} {e : EvalError}

theorem resultIn_anew : resultIn σ (anew i x) = resultIn (logged σ (.enter i)) x := by
  have h : resultIn σ (anew i x) =
      resultIn (logged σ (.enter i)) (x >>= fun m => record (.leave i) >>= fun _ => pure m) := rfl
  rw [h]
  cases hx : resultIn (logged σ (.enter i)) x with
  | ok m =>
    rw [resultIn_bind_ok hx]
    rfl
  | error e => rw [resultIn_bind_error hx]

theorem after_anew_ok (h : resultIn (logged σ (.enter i)) x = .ok found) :
    after σ (anew i x) = logged (after (logged σ (.enter i)) x) (.leave i) :=
  after_bind_ok h

theorem after_anew_error (h : resultIn (logged σ (.enter i)) x = .error e) :
    after σ (anew i x) = after (logged σ (.enter i)) x :=
  after_bind_error h

/-- The session with the matches of one more path. -/
def stored (σ : Session) (i : Nat) (found : Matches) : Session := { σ with roots := (i, found) :: σ.roots }

theorem stored_root?_self (σ : Session) (i : Nat) (found : Matches) : (stored σ i found).root? i = some found := by
  simp [stored, Session.root?]

theorem stored_root?_of_ne {i j : Nat} (h : j ≠ i) (σ : Session) (found : Matches) :
    (stored σ i found).root? j = σ.root? j := by
  have hb : (j == i) = false := by simpa using h
  simp [stored, Session.root?, List.lookup_cons, hb]

theorem once_known (h : σ.root? i = some found) :
    resultIn σ (once i x) = .ok found ∧ after σ (once i x) = σ := by
  have hr : resultIn σ (root? i) = .ok (some found) := congrArg Except.ok h
  exact Prod.ext_iff.1 (run_bind_ok hr)

theorem run_once_unknown (h : σ.root? i = none) :
    (once i x).run.run σ = (anew i x >>= fun m => storeRoot i m >>= fun _ => pure m : Eval Matches).run.run σ := by
  have hr : resultIn σ (root? i) = .ok none := congrArg Except.ok h
  exact run_bind_ok hr

theorem once_ok (h : σ.root? i = none) (hx : resultIn σ (anew i x) = .ok found) :
    resultIn σ (once i x) = .ok found ∧ after σ (once i x) = stored (after σ (anew i x)) i found := by
  have hr : (once i x).run.run σ = (.ok found, stored (after σ (anew i x)) i found) := by
    rw [run_once_unknown h, run_bind_ok hx]
    rfl
  exact Prod.ext_iff.1 hr

theorem once_error (h : σ.root? i = none) (hx : resultIn σ (anew i x) = .error e) :
    resultIn σ (once i x) = .error e ∧ after σ (once i x) = after σ (anew i x) := by
  have hr : (once i x).run.run σ = (.error e, after σ (anew i x)) := by
    rw [run_once_unknown h, run_bind_error hx]
  exact Prod.ext_iff.1 hr

end PathQuery.Strategy
