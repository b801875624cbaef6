import Mathlib.Data.List.Nodup
import PathQuery.Proofs.Query.Occurrences
import PathQuery.Proofs.Query.Session
import PathQuery.Proofs.Query.Simulation
import PathQuery.Standard

namespace PathQuery

open Eval Strategy

/-- What a session knows of the paths behind some occurrences of the root is what evaluating them anew gives. -/
def Session.Faithful (s : Setting) (chains : List Chain) (σ : Session) : Prop :=
  ∀ c ∈ chains, ∀ found, σ.root? c.occurrence = some found →
    ∀ τ, resultIn τ (select .anew s c.path (.root s.doc)) = .ok found

namespace Session

variable {s : Setting} {chains : List Chain} {σ : Session}

theorem faithful_empty : Faithful s chains .empty := by
  intro c _ found h
  simp [Session.root?, Session.empty] at h

theorem faithful_logged {e : Event} : Faithful s chains (logged σ e) ↔ Faithful s chains σ := Iff.rfl

theorem Faithful.stored (hσ : Faithful s chains σ) (hd : (chains.map (·.occurrence)).Nodup) {c : Chain}
    (hc : c ∈ chains) {found : Matches}
    (h : ∀ τ, resultIn τ (select .anew s c.path (.root s.doc)) = .ok found) :
    Faithful s chains (stored σ c.occurrence found) := by
  intro d hm known hk
  by_cases ho : d.occurrence = c.occurrence
  · -- the occurrence tells which chain it is
    have hdc : d = c := List.inj_on_of_nodup_map hd hm hc ho
    subst hdc
    rw [stored_root?_self] at hk
    cases hk
    exact h
  · rw [stored_root?_of_ne ho] at hk
    exact hσ d hm known hk

end Session

/-- From a faithful session `x` gives what `y` gives in any session, and leaves a faithful session. -/
def Agrees (s : Setting) (chains : List Chain) {α : Type} (x y : Eval α) : Prop :=
  ∀ σ τ, σ.Faithful s chains → resultIn σ x = resultIn τ y ∧ (after σ x).Faithful s chains

namespace Agrees

variable {s : Setting} {chains : List Chain} {α β : Type}

theorem bind {x y : Eval α} {f g : α → Eval β} (hx : Agrees s chains x y)
    (hf : ∀ a, Agrees s chains (f a) (g a)) : Agrees s chains (x >>= f) (y >>= g) := by
  intro σ τ hσ
  obtain ⟨hr, ha⟩ := hx σ τ hσ
  cases h : resultIn σ x with
  | ok a =>
    rw [resultIn_bind_ok h, resultIn_bind_ok (hr ▸ h), after_bind_ok h]
    exact hf a _ _ ha
  | error e =>
    rw [resultIn_bind_error h, resultIn_bind_error (hr ▸ h), after_bind_error h]
    exact ⟨rfl, ha⟩

theorem call (f : Function) (arguments : List Value) :
    Agrees s chains (Eval.call f arguments) (Eval.call f arguments) := by
  intro σ τ hσ
  rw [resultIn_call, resultIn_call, after_call]
  exact ⟨rfl, Session.faithful_logged.2 hσ⟩

theorem root (hd : (chains.map (·.occurrence)).Nodup) {c : Chain} (hc : c ∈ chains) {x : Eval Matches}
    (hx : Agrees s chains x (select .anew s c.path (.root s.doc))) :
    Agrees s chains (once c.occurrence x) (anew c.occurrence (select .anew s c.path (.root s.doc))) := by
  intro σ τ hσ
  rw [resultIn_anew]
  cases hk : σ.root? c.occurrence with
  | some found =>
    obtain ⟨hr, ha⟩ := once_known (x := x) hk
    rw [hr, ha, hσ c hc found hk]
    exact ⟨rfl, hσ⟩
  | none =>
    have hl := Session.faithful_logged (e := .enter c.occurrence).2 hσ
    cases hf : resultIn (logged σ (.enter c.occurrence)) x with
    | error e =>
      obtain ⟨hr, ha⟩ := once_error hk (resultIn_anew.trans hf)
      rw [hr, ha, after_anew_error hf, ← (hx _ (logged τ (.enter c.occurrence)) hl).1, hf]
      exact ⟨rfl, (hx _ τ hl).2⟩
    | ok found =>
      have hy : ∀ τ, resultIn τ (select .anew s c.path (.root s.doc)) = .ok found := by
        intro τ
        rw [← (hx _ τ hl).1, hf]
      obtain ⟨hr, ha⟩ := once_ok hk (resultIn_anew.trans hf)
      rw [hr, ha, hy, after_anew_ok hf]
      exact ⟨rfl, (Session.faithful_logged.2 (hx _ τ hl).2).stored hd hc hy⟩

/-- Evaluating paths from the root once agrees with evaluating them anew. -/
def simulation (s : Setting) {chains : List Chain} (hd : (chains.map (·.occurrence)).Nodup) :
    Simulation .once .anew s where
  Admits c := c ∈ chains
  Related _ x y := Agrees s chains x y
  pure _ := fun _ _ hσ => ⟨rfl, hσ⟩
  throw _ := fun _ _ hσ => ⟨rfl, hσ⟩
  bind := bind
  call := call
  root hc _ _ hx := root hd hc hx

end Agrees

namespace Event

def entered? : Event → Option Nat
  | enter i => some i
  | _ => none

/-- The paths from the root that are being evaluated behind an event, innermost first. -/
def nest (busy : List Nat) : Event → Option (List Nat)
  | enter i => some (i :: busy)
  | leave i => if busy.head? = some i then some busy.tail else none
  | call _ => some busy

end Event

/-- The occurrences of the root that are entered in some events. -/
def entered (events : List Event) : List Nat := events.filterMap Event.entered?

/-- The paths from the root that are being evaluated behind some events; none if an exit does not fit its entry. -/
def busyAfter (events : List Event) : Option (List Nat) := events.foldlM Event.nest []

theorem entered_concat (events : List Event) (e : Event) :
    entered (events ++ [e]) = entered events ++ e.entered?.toList := by
  cases e <;> simp [entered, Event.entered?]

theorem busyAfter_concat {events : List Event} {busy : List Nat} (h : busyAfter events = some busy) (e : Event) :
    busyAfter (events ++ [e]) = Event.nest busy e := by
  unfold busyAfter at h ⊢
  rw [List.foldlM_append, h]
  cases he : Event.nest busy e <;> simp [he]

namespace Session

/-- What has been done, in its order. -/
def log (σ : Session) : List Event := σ.events.reverse

@[simp] theorem log_logged (σ : Session) (e : Event) : (logged σ e).log = σ.log ++ [e] := by
  simp [log, logged]

@[simp] theorem log_stored (σ : Session) (i : Nat) (found : Matches) : (stored σ i found).log = σ.log := rfl

/-- Each occurrence has been entered once, and those that are not being evaluated any more are known. -/
structure Orderly (busy : List Nat) (σ : Session) : Prop where
  nested : busyAfter σ.log = some busy
  nodup : (entered σ.log).Nodup
  known : ∀ i ∈ entered σ.log, i ∈ busy ∨ (σ.root? i).isSome = true

variable {busy : List Nat} {σ : Session} {i : Nat}

theorem orderly_empty : Orderly [] .empty := ⟨rfl, List.nodup_nil, by simp [entered, log, empty]⟩

theorem Orderly.call (h : Orderly busy σ) (c : Call) : Orderly busy (logged σ (.call c)) := by
  have he : entered (logged σ (.call c)).log = entered σ.log := by
    rw [log_logged, entered_concat]
    simp [Event.entered?]
  constructor
  · rw [log_logged, busyAfter_concat h.nested]
    rfl
  · rw [he]
    exact h.nodup
  · rw [he]
    exact h.known

theorem Orderly.enter (h : Orderly busy σ) (hb : i ∉ busy) (hk : σ.root? i = none) :
    Orderly (i :: busy) (logged σ (.enter i)) := by
  have hi : i ∉ entered σ.log := by
    intro hm
    rcases h.known i hm with hm | hm
    · exact hb hm
    · simp [hk] at hm
  have he : entered (logged σ (.enter i)).log = entered σ.log ++ [i] := by
    rw [log_logged, entered_concat]
    rfl
  constructor
  · rw [log_logged, busyAfter_concat h.nested]
    rfl
  · rw [he]
    exact List.nodup_append.2 ⟨h.nodup, List.nodup_singleton i, by
      intro j hj k hk
      obtain rfl : k = i := by simpa using hk
      intro hjk
      exact hi (hjk ▸ hj)⟩
  · rw [he]
    intro j hj
    rcases List.mem_append.1 hj with hj | hj
    · rcases h.known j hj with hj | hj
      · exact .inl (List.mem_cons_of_mem _ hj)
      · exact .inr hj
    · exact .inl (List.mem_cons.2 (.inl (List.mem_singleton.1 hj)))

theorem Orderly.leave (h : Orderly (i :: busy) σ) (found : Matches) :
    Orderly busy (stored (logged σ (.leave i)) i found) := by
  have he : entered (logged σ (.leave i)).log = entered σ.log := by
    rw [log_logged, entered_concat]
    simp [Event.entered?]
  constructor
  · rw [log_stored, log_logged, busyAfter_concat h.nested]
    simp [Event.nest]
  · rw [log_stored, he]
    exact h.nodup
  · rw [log_stored, he]
    intro j hj
    by_cases hji : j = i
    · subst hji
      exact .inr (by rw [stored_root?_self]; rfl)
    · rw [stored_root?_of_ne hji]
      rcases h.known j hj with hj | hj
      · exact .inl ((List.mem_cons.1 hj).resolve_left hji)
      · exact .inr hj

end Session

/-- `x` enters no occurrence that has been entered before, if it reaches no other chains than `chains` and none of
these is being evaluated. -/
def EntersOnce (chains : List Chain) {α : Type} (x : Eval α) : Prop :=
  ∀ busy σ, (∀ c ∈ chains, c.occurrence ∉ busy) → σ.Orderly busy →
    ((entered (after σ x).log).Nodup ∧ (busyAfter (after σ x).log).isSome = true) ∧
      ∀ a, resultIn σ x = .ok a → (after σ x).Orderly busy

namespace EntersOnce

variable {chains : List Chain} {α β : Type}

theorem of_orderly {x : Eval α} (h : ∀ busy σ, σ.Orderly busy → (after σ x).Orderly busy) : EntersOnce chains x := by
  intro busy σ _ hσ
  have ha := h busy σ hσ
  exact ⟨⟨ha.nodup, by rw [ha.nested]; rfl⟩, fun _ _ => ha⟩

theorem bind {x : Eval α} {f : α → Eval β} (hx : EntersOnce chains x) (hf : ∀ a, EntersOnce chains (f a)) :
    EntersOnce chains (x >>= f) := by
  intro busy σ hb hσ
  obtain ⟨hn, ha⟩ := hx busy σ hb hσ
  cases h : resultIn σ x with
  | ok a =>
    rw [resultIn_bind_ok h, after_bind_ok h]
    exact hf a busy _ hb (ha a h)
  | error e =>
    rw [resultIn_bind_error h, after_bind_error h]
    refine ⟨hn, ?_⟩
    intro a he
    cases he

theorem root {c : Chain} (hc : c ∈ chains) (hs : pathChains c.path ⊆ chains)
    (ho : c.occurrence ∉ pathOccurrences c.path) {x : Eval Matches} (hx : EntersOnce (pathChains c.path) x) :
    EntersOnce chains (once c.occurrence x) := by
  intro busy σ hb hσ
  cases hk : σ.root? c.occurrence with
  | some found =>
    obtain ⟨-, ha⟩ := once_known (x := x) hk
    rw [ha]
    exact ⟨⟨hσ.nodup, by rw [hσ.nested]; rfl⟩, fun _ _ => hσ⟩
  | none =>
    have hb' : ∀ d ∈ pathChains c.path, d.occurrence ∉ c.occurrence :: busy := by
      intro d hd hm
      rcases List.mem_cons.1 hm with hm | hm
      · exact ho (hm ▸ List.mem_map_of_mem hd)
      · exact hb d (hs hd) hm
    obtain ⟨hn, hok⟩ := hx _ _ hb' (hσ.enter (hb c hc) hk)
    cases hf : resultIn (logged σ (.enter c.occurrence)) x with
    | error e =>
      obtain ⟨hr, ha⟩ := once_error hk (resultIn_anew.trans hf)
      rw [hr, ha, after_anew_error hf]
      refine ⟨hn, ?_⟩
      intro a he
      cases he
    | ok found =>
      obtain ⟨-, ha⟩ := once_ok hk (resultIn_anew.trans hf)
      have hl := (hok found hf).leave found
      rw [ha, after_anew_ok hf]
      exact ⟨⟨hl.nodup, by rw [hl.nested]; rfl⟩, fun _ _ => hl⟩

/-- No occurrence is entered twice when paths from the root are evaluated once. -/
def simulation (s : Setting) : Simulation .once .once s where
  Admits c := c.occurrence ∉ pathOccurrences c.path
  Related chains x _ := EntersOnce chains x
  pure _ := of_orderly fun _ _ hσ => hσ
  throw _ := of_orderly fun _ _ hσ => hσ
  bind := bind
  call f arguments := of_orderly fun _ _ hσ => by
    rw [after_call]
    exact hσ.call _
  root ho hc hs hx := root hc hs ho hx

end EntersOnce

namespace Query

variable {env : Env} {text : String} {q : Query}

theorem agrees (h : compileWith env text = .ok q) (s : Setting) {path : List Selector}
    (hp : pathChains path ⊆ programChains q.program) (n : Node) :
    Agrees s (programChains q.program) (select .once s path n) (select .anew s path n) :=
  (Agrees.simulation s (occurrences_nodup h)).select_related path n ⟨hp, fun _ hc => hp hc⟩

theorem evaluate_agrees (h : compileWith env text = .ok q) (s : Setting) (n : Node) :
    Agrees s (programChains q.program) (PathQuery.evaluate .once s q.program n)
      (PathQuery.evaluate .anew s q.program n) :=
  (Agrees.simulation s (occurrences_nodup h)).evaluate_related q.program n ⟨fun _ hc => hc, fun _ hc => hc⟩

/-- An occurrence does not stand behind itself. -/
theorem occurrence_not_mem_path (h : compileWith env text = .ok q) {c : Chain} (hc : c ∈ programChains q.program) :
    c.occurrence ∉ pathOccurrences c.path := by
  have hs := (programChains_sublist q.program hc).map (·.occurrence)
  have hn := hs.nodup (occurrences_nodup h)
  exact (List.nodup_cons.1 hn).1

theorem evaluate_entersOnce (h : compileWith env text = .ok q) (s : Setting) (n : Node) :
    EntersOnce (programChains q.program) (PathQuery.evaluate .once s q.program n) :=
  (EntersOnce.simulation s).evaluate_related q.program n
    ⟨fun _ hc => hc, fun _ hc => occurrence_not_mem_path h hc⟩

theorem search_eq_searchBy_anew (h : compileWith env text = .ok q) (keep : Bool) (doc : Value) :
    (q.search keep doc).result = (q.searchBy .anew keep doc).result :=
  (evaluate_agrees h ⟨doc, keep⟩ (.root doc) .empty .empty Session.faithful_empty).1

/-- Knowing the matches of paths from the root changes no answer: a query finds what it would find if every path were
evaluated anew wherever it is reached, and so does every path in it, from any node and in any session that evaluations
of the query can leave. No occurrence of the root is entered twice, so what is called between its entry and its exit
is called in one evaluation of its path. -/
theorem root_paths_evaluated_once (h : compileWith env text = .ok q) (f : Flags) (doc : Value) :
    ((q.search f.tracksLocations doc).result = (q.searchBy .anew f.tracksLocations doc).result ∧
      (q.nodes f doc).result =
        (q.searchBy .anew f.tracksLocations doc).result.map fun m => f.arrange m.nodes) ∧
    (Session.empty.Faithful ⟨doc, f.tracksLocations⟩ (programChains q.program) ∧
      ∀ path, q.program.HasPath path → ∀ n σ τ, σ.Faithful ⟨doc, f.tracksLocations⟩ (programChains q.program) →
        resultIn σ (select .once ⟨doc, f.tracksLocations⟩ path n) =
          resultIn τ (select .anew ⟨doc, f.tracksLocations⟩ path n) ∧
        (after σ (select .once ⟨doc, f.tracksLocations⟩ path n)).Faithful ⟨doc, f.tracksLocations⟩
          (programChains q.program)) ∧
    ((entered (q.search f.tracksLocations doc).events).Nodup ∧
      (busyAfter (q.search f.tracksLocations doc).events).isSome = true ∧
      ∀ m, (q.search f.tracksLocations doc).result = .ok m →
        busyAfter (q.search f.tracksLocations doc).events = some []) := by
  have hs := search_eq_searchBy_anew h f.tracksLocations doc
  refine ⟨⟨hs, ?_⟩, ⟨Session.faithful_empty, ?_⟩, ?_⟩
  · show (q.search f.tracksLocations doc).result.map _ = _
    rw [hs]
  · intro path hp n σ τ hσ
    exact agrees h _ hp.chains_subset n σ τ hσ
  · have hb : ∀ c ∈ programChains q.program, c.occurrence ∉ ([] : List Nat) := by
      intro c _
      exact List.not_mem_nil
    obtain ⟨⟨hn, hi⟩, ho⟩ :=
      evaluate_entersOnce h ⟨doc, f.tracksLocations⟩ (.root doc) [] .empty hb Session.orderly_empty
    exact ⟨hn, hi, fun m hm => (ho m hm).nested⟩

/-- The filter reaches its path from the root at both elements and evaluates it at the first. -/
theorem root_paths_evaluated_once_filter :
    ∃ q, compileWith (.standard []) "$[?$.a]" = .ok q ∧
      (q.nodes .located (.array [.null, .null])).result =
        (q.searchBy .anew true (.array [.null, .null])).result.map (fun m => Flags.located.arrange m.nodes) ∧
      (entered (q.search true (.array [.null, .null])).events).Nodup ∧
      entered (q.search true (.array [.null, .null])).events = [0, 1] := by
  have h : compileWith (.standard []) "$[?$.a]" =
      .ok ⟨[.root, .path [.root 0, .filter [.root, .path [.root 1, .member "a"]]]]⟩ :=
    compileWith_of_runFor (k := 20) rfl
  obtain ⟨⟨-, hn⟩, -, he, -⟩ := root_paths_evaluated_once h .located (.array [.null, .null])
  exact ⟨_, h, hn, he, rfl⟩

end Query

end PathQuery
