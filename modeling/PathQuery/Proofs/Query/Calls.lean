import PathQuery.Proofs.Query.Cache

namespace PathQuery

open Eval Strategy

namespace Session

/-- The calls that have been made, latest first. -/
def calls (σ : Session) : List Call := σ.events.filterMap Event.call?

variable {σ : Session}

@[simp] theorem calls_enter (i : Nat) : (logged σ (.enter i)).calls = σ.calls := rfl

@[simp] theorem calls_leave (i : Nat) : (logged σ (.leave i)).calls = σ.calls := rfl

@[simp] theorem calls_call (c : Call) : (logged σ (.call c)).calls = c :: σ.calls := rfl

@[simp] theorem calls_stored (i : Nat) (found : Matches) : (stored σ i found).calls = σ.calls := rfl

@[simp] theorem calls_empty : Session.empty.calls = [] := rfl

end Session

theorem calls_anew (σ : Session) (i : Nat) (x : Eval Matches) :
    (after σ (anew i x)).calls = (after (logged σ (.enter i)) x).calls := by
  cases hf : resultIn (logged σ (.enter i)) x with
  | error e => rw [after_anew_error hf]
  | ok found =>
    rw [after_anew_ok hf]
    rfl

/-- A computation takes no call back. -/
def KeepsCalls {α : Type} (x : Eval α) : Prop := ∀ σ, σ.calls ⊆ (after σ x).calls

namespace KeepsCalls

theorem bind {α β : Type} {x : Eval α} {f : α → Eval β} (hx : KeepsCalls x) (hf : ∀ a, KeepsCalls (f a)) :
    KeepsCalls (x >>= f) := by
  intro σ
  cases h : resultIn σ x with
  | ok a =>
    rw [after_bind_ok h]
    exact List.Subset.trans (hx σ) (hf a _)
  | error e =>
    rw [after_bind_error h]
    exact hx σ

theorem call (f : Function) (arguments : List Value) : KeepsCalls (Eval.call f arguments) := by
  intro σ
  rw [after_call]
  exact List.subset_cons_self _ _

theorem anew {x : Eval Matches} (hx : KeepsCalls x) (i : Nat) : KeepsCalls (anew i x) := by
  intro σ
  rw [calls_anew]
  exact hx (logged σ (.enter i))

/-- No part of an evaluation takes a call back. -/
def simulation (s : Setting) : Simulation .anew .anew s where
  Admits _ := True
  Related _ x _ := KeepsCalls x
  pure _ := fun σ => List.Subset.refl σ.calls
  throw _ := fun σ => List.Subset.refl σ.calls
  bind := bind
  call := call
  root _ _ _ hx := hx.anew _

end KeepsCalls

/-- The calls that led to the matches that a session knows, when their paths are evaluated anew, are among its own. -/
def Session.Recalls (s : Setting) (chains : List Chain) (σ : Session) : Prop :=
  ∀ c ∈ chains, (σ.root? c.occurrence).isSome = true →
    ∀ τ, (after τ (select .anew s c.path (.root s.doc))).calls ⊆ τ.calls ++ σ.calls

namespace Session

variable {s : Setting} {chains : List Chain} {σ ρ : Session}

theorem recalls_empty : Recalls s chains .empty := by
  intro c _ h
  simp [Session.root?, Session.empty] at h

theorem Recalls.mono (h : Recalls s chains σ) (hr : ρ.roots = σ.roots) (hc : σ.calls ⊆ ρ.calls) :
    Recalls s chains ρ := by
  intro c hm hk τ
  have hk : (σ.root? c.occurrence).isSome = true := by simpa only [Session.root?, hr] using hk
  have hl := List.subset_append_left τ.calls ρ.calls
  have hr := List.Subset.trans hc (List.subset_append_right τ.calls ρ.calls)
  exact List.Subset.trans (h c hm hk τ) (List.append_subset.2 ⟨hl, hr⟩)

theorem Recalls.stored (h : Recalls s chains σ) (hd : (chains.map (·.occurrence)).Nodup) {c : Chain} (hc : c ∈ chains)
    (found : Matches) (ha : ∀ τ, (after τ (select .anew s c.path (.root s.doc))).calls ⊆ τ.calls ++ σ.calls) :
    Recalls s chains (stored σ c.occurrence found) := by
  intro d hm hk τ
  by_cases ho : d.occurrence = c.occurrence
  · have hdc : d = c := List.inj_on_of_nodup_map hd hm hc ho
    subst hdc
    exact ha τ
  · rw [stored_root?_of_ne ho] at hk
    exact h d hm hk τ

end Session

/-- What is called from the session `σ` by `x` covers what `y` calls from the session `τ`. -/
structure Covered (s : Setting) (chains : List Chain) {α : Type} (x y : Eval α) (σ τ : Session) : Prop where
  keeps : σ.calls ⊆ (after σ x).calls
  recalls : (after σ x).Recalls s chains
  calls : (after τ y).calls ⊆ τ.calls ++ (after σ x).calls

/-- `x` agrees with `y`, and all that `y` calls has been called behind `x`. -/
structure Repeats (s : Setting) (chains : List Chain) {α : Type} (x y : Eval α) : Prop where
  agrees : Agrees s chains x y
  covered : ∀ σ τ, σ.Faithful s chains → σ.Recalls s chains → Covered s chains x y σ τ

namespace Repeats

variable {s : Setting} {chains : List Chain} {α β : Type}

/-- Computations that give the same and leave every session as it is. -/
theorem of_after_eq {x y : Eval α} (hr : ∀ σ τ, resultIn σ x = resultIn τ y) (hx : ∀ σ, after σ x = σ)
    (hy : ∀ τ, after τ y = τ) : Repeats s chains x y := by
  constructor
  · intro σ τ hσ
    exact ⟨hr σ τ, (hx σ).symm ▸ hσ⟩
  · intro σ τ _ h
    constructor
    · rw [hx]
      exact List.Subset.refl _
    · rwa [hx]
    · rw [hy]
      exact List.subset_append_left _ _

theorem bind {x y : Eval α} {f g : α → Eval β} (hx : Repeats s chains x y)
    (hf : ∀ a, Repeats s chains (f a) (g a)) : Repeats s chains (x >>= f) (y >>= g) := by
  constructor
  · exact hx.agrees.bind fun a => (hf a).agrees
  · intro σ τ hσ hr
    obtain ⟨he, ha⟩ := hx.agrees σ τ hσ
    have hc := hx.covered σ τ hσ hr
    cases h : resultIn σ x with
    | error e =>
      rw [he] at h
      have h' := he.trans h
      constructor
      · rw [after_bind_error h']
        exact hc.keeps
      · rw [after_bind_error h']
        exact hc.recalls
      · rw [after_bind_error h', after_bind_error h]
        exact hc.calls
    | ok a =>
      rw [he] at h
      have h' := he.trans h
      have hcf := (hf a).covered (after σ x) (after τ y) ha hc.recalls
      constructor
      · rw [after_bind_ok h']
        exact List.Subset.trans hc.keeps hcf.keeps
      · rw [after_bind_ok h']
        exact hcf.recalls
      · rw [after_bind_ok h', after_bind_ok h]
        intro c hm
        rcases List.mem_append.1 (hcf.calls hm) with hm | hm
        · rcases List.mem_append.1 (hc.calls hm) with hm | hm
          · exact List.mem_append_left _ hm
          · exact List.mem_append_right _ (hcf.keeps hm)
        · exact List.mem_append_right _ hm

theorem call (f : Function) (arguments : List Value) :
    Repeats s chains (Eval.call f arguments) (Eval.call f arguments) := by
  constructor
  · exact Agrees.call f arguments
  · intro σ τ _ hr
    constructor
    · rw [after_call]
      exact List.subset_cons_self _ _
    · rw [after_call]
      exact hr.mono rfl (List.subset_cons_self _ _)
    · rw [after_call, after_call]
      intro c hm
      rcases List.mem_cons.1 hm with rfl | hm
      · exact List.mem_append_right _ List.mem_cons_self
      · exact List.mem_append_left _ hm

theorem root (hd : (chains.map (·.occurrence)).Nodup) {c : Chain} (hc : c ∈ chains) {x : Eval Matches}
    (hx : Repeats s chains x (select .anew s c.path (.root s.doc))) :
    Repeats s chains (once c.occurrence x) (anew c.occurrence (select .anew s c.path (.root s.doc))) := by
  constructor
  · exact Agrees.root hd hc hx.agrees
  · intro σ τ hσ hr
    have hanew : (after τ (anew c.occurrence (select .anew s c.path (.root s.doc)))).calls =
        (after (logged τ (.enter c.occurrence)) (select .anew s c.path (.root s.doc))).calls := calls_anew _ _ _
    cases hk : σ.root? c.occurrence with
    | some found =>
      have ha := (once_known (x := x) hk).2
      constructor
      · rw [ha]
        exact List.Subset.refl _
      · rwa [ha]
      · rw [ha, hanew]
        exact hr c hc (by rw [hk]; rfl) _
    | none =>
      have hcov : ∀ ρ, Covered s chains x (select .anew s c.path (.root s.doc)) (logged σ (.enter c.occurrence)) ρ :=
        fun ρ => hx.covered _ ρ hσ (hr.mono rfl (List.Subset.refl _))
      cases hf : resultIn (logged σ (.enter c.occurrence)) x with
      | error e =>
        have ha := (once_error hk (resultIn_anew.trans hf)).2.trans (after_anew_error hf)
        constructor
        · rw [ha]
          exact (hcov τ).keeps
        · rw [ha]
          exact (hcov τ).recalls
        · rw [ha, hanew]
          exact (hcov _).calls
      | ok found =>
        have ha := (once_ok hk (resultIn_anew.trans hf)).2
        rw [after_anew_ok hf] at ha
        constructor
        · rw [ha]
          exact (hcov τ).keeps
        · rw [ha]
          exact ((hcov τ).recalls.mono rfl (List.Subset.refl _)).stored hd hc found fun ρ => (hcov ρ).calls
        · rw [ha, hanew]
          exact (hcov _).calls

/-- Evaluating paths from the root once calls all that evaluating them anew calls. -/
def simulation (s : Setting) {chains : List Chain} (hd : (chains.map (·.occurrence)).Nodup) :
    Simulation .once .anew s where
  Admits c := c ∈ chains
  Related _ x y := Repeats s chains x y
  pure _ := of_after_eq (fun _ _ => rfl) (fun _ => rfl) fun _ => rfl
  throw _ := of_after_eq (fun _ _ => rfl) (fun _ => rfl) fun _ => rfl
  bind := bind
  call := call
  root hc _ _ hx := root hd hc hx

end Repeats

namespace Query

variable {env : Env} {text : String} {q : Query}

theorem evaluate_repeats (h : compileWith env text = .ok q) (s : Setting) (n : Node) :
    Repeats s (programChains q.program) (PathQuery.evaluate .once s q.program n)
      (PathQuery.evaluate .anew s q.program n) :=
  (Repeats.simulation s (occurrences_nodup h)).evaluate_related q.program n ⟨fun _ hc => hc, fun _ hc => hc⟩

theorem searchBy_calls (t : Strategy) (q : Query) (keep : Bool) (doc : Value) :
    (q.searchBy t keep doc).calls =
      (after .empty (PathQuery.evaluate t ⟨doc, keep⟩ q.program (.root doc))).calls.reverse := by
  show List.filterMap Event.call? (List.reverse _) = _
  rw [List.filterMap_reverse]
  rfl

/-- A query calls a function with some arguments wherever it would if every path were evaluated anew. -/
theorem searchBy_anew_calls_subset (h : compileWith env text = .ok q) (keep : Bool) (doc : Value) :
    (q.searchBy .anew keep doc).calls ⊆ (q.search keep doc).calls := by
  have hc := ((evaluate_repeats h ⟨doc, keep⟩ (.root doc)).covered .empty .empty Session.faithful_empty
    Session.recalls_empty).calls
  rw [search, searchBy_calls, searchBy_calls]
  intro c hm
  rw [List.mem_reverse] at hm ⊢
  simpa using hc hm

end Query

end PathQuery
