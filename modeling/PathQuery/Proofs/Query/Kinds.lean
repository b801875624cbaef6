import PathQuery.Proofs.Query.Cache
import PathQuery.Standard

namespace PathQuery

open Eval Strategy

/-- The selectors that may lead from one node to many. -/
inductive Selector.Multiplies : Selector → Prop
  | wildcard : Multiplies .wildcard
  | descend : Multiplies .descend
  | slice (s : Slice) : Multiplies (.slice s)
  | union (branches : List Program) : Multiplies (.union branches)
  | filter (test : Program) : Multiplies (.filter test)

theorem Selector.kind_eq_many {x : Selector} : x.kind = .many ↔ x.Multiplies := by
  constructor
  · intro h
    cases x with
    | wildcard => exact .wildcard
    | descend => exact .descend
    | slice s => exact .slice s
    | union branches => exact .union branches
    | filter test => exact .filter test
    | _ => cases h
  · intro h
    cases h <;> rfl

namespace Kind

theorem ofPath_eq_many {path : List Selector} : ofPath path = .many ↔ ∃ x ∈ path, x.Multiplies := by
  unfold ofPath
  split
  · next h =>
    obtain ⟨x, hx, hk⟩ := List.any_eq_true.1 h
    exact ⟨fun _ => ⟨x, hx, Selector.kind_eq_many.1 (by simpa using hk)⟩, fun _ => rfl⟩
  · next h =>
    refine ⟨nofun, ?_⟩
    rintro ⟨x, hx, hm⟩
    exact absurd (List.any_eq_true.2 ⟨x, hx, by simp [Selector.kind_eq_many.2 hm]⟩) h

theorem ofPath_cons_many {x : Selector} (h : x.kind = .many) (path : List Selector) : ofPath (x :: path) = .many := by
  simp [ofPath, h]

theorem ofPath_cons_single {x : Selector} (h : x.kind = .single) (path : List Selector) :
    ofPath (x :: path) = ofPath path := by
  simp [ofPath, h]

end Kind

/-- Matches of a kind; those of the kind of one node are one node or none. -/
structure Matches.Has (kind : Kind) (m : Matches) : Prop where
  kind_eq : m.kind = kind
  length_le : kind = .single → m.nodes.length ≤ 1

/-- All matches that a computation can come to are of a kind. -/
def OfKind (kind : Kind) (x : Eval Matches) : Prop := ∀ σ m, resultIn σ x = .ok m → m.Has kind

namespace OfKind

variable {kind : Kind} {x : Eval Matches}

theorem none (kind : Kind) : OfKind kind (pure ⟨[], kind⟩) := by
  intro σ m h
  cases h
  exact ⟨rfl, fun _ => Nat.zero_le 1⟩

theorem bind {α : Type} {y : Eval α} {f : α → Eval Matches} (h : ∀ a, OfKind kind (f a)) : OfKind kind (y >>= f) := by
  intro σ m hm
  cases hy : resultIn σ y with
  | error e =>
    rw [resultIn_bind_error hy] at hm
    cases hm
  | ok a =>
    rw [resultIn_bind_ok hy] at hm
    exact h a _ m hm

theorem many (ns : List Node) : OfKind .many (pure ⟨ns, .many⟩) := by
  intro σ m h
  cases h
  exact ⟨rfl, nofun⟩

theorem collect (go : Node → Eval Matches) (ns : List Node) : OfKind .many (Eval.collect go ns) :=
  bind fun _ => many _

theorem goOn {go : Node → Eval Matches} (h : ∀ n, OfKind kind (go n)) (n : Option Node) :
    OfKind kind (Eval.goOn go kind n) := by
  cases n with
  | none => exact none kind
  | some n => exact h n

theorem anew (h : OfKind kind x) (i : Nat) : OfKind kind (anew i x) := by
  intro σ m hm
  rw [resultIn_anew] at hm
  exact h _ m hm

end OfKind

/-- What a selector leads to has the kind of its path, if what is behind it has the kind of the rest. -/
theorem ofKind_follow {s : Setting} (x : Selector) {path : List Selector} {go : Node → Eval Matches}
    (hg : ∀ n, OfKind (.ofPath path) (go n)) (n : Node) :
    OfKind (.ofPath (x :: path)) (follow .anew s x go (.ofPath path) n) := by
  cases x with
  | root i =>
    rw [Kind.ofPath_cons_single rfl, follow]
    exact (hg _).anew i
  | current =>
    rw [Kind.ofPath_cons_single rfl, follow]
    exact hg n
  | member name =>
    rw [Kind.ofPath_cons_single rfl, follow]
    exact .goOn hg _
  | index i =>
    rw [Kind.ofPath_cons_single rfl, follow]
    exact .goOn hg _
  | wildcard =>
    rw [Kind.ofPath_cons_many rfl, follow]
    exact .collect go _
  | descend =>
    rw [Kind.ofPath_cons_many rfl, follow]
    exact .collect go _
  | slice r =>
    rw [Kind.ofPath_cons_many rfl, follow]
    exact .collect go _
  | union branches =>
    rw [Kind.ofPath_cons_many rfl, follow]
    exact .bind fun _ => .many _
  | filter test =>
    rw [Kind.ofPath_cons_many rfl, follow]
    exact .collect _ _
  | computed key =>
    rw [Kind.ofPath_cons_single rfl, follow]
    refine .bind fun stack => .bind fun found => ?_
    split
    · exact .goOn hg _
    · exact .none _
  | call f arguments =>
    rw [Kind.ofPath_cons_single rfl, follow]
    exact .bind fun values => .bind fun v => hg _

theorem ofKind_select {s : Setting} (path : List Selector) (n : Node) :
    OfKind (.ofPath path) (select .anew s path n) := by
  induction path generalizing n with
  | nil =>
    intro σ m h
    rw [select] at h
    cases h
    exact ⟨rfl, fun _ => Nat.le_refl 1⟩
  | cons x path ih =>
    rw [select]
    exact ofKind_follow x ih n

/-- The sessions that the evaluation of a query can be in: it records what it does, and it stores what a path from the
root comes to in such a session. -/
inductive Session.Reachable (s : Setting) (chains : List Chain) : Session → Prop
  | empty : Reachable s chains .empty
  | logged {σ : Session} (e : Event) (h : Reachable s chains σ) : Reachable s chains (logged σ e)
  | stored {σ τ : Session} {c : Chain} {found : Matches} (h : Reachable s chains σ) (hc : c ∈ chains)
      (hτ : Reachable s chains τ) (hf : resultIn τ (select .once s c.path (.root s.doc)) = .ok found) :
      Reachable s chains (stored σ c.occurrence found)

/-- From a session that can be reached a computation comes to another. -/
def Stays (s : Setting) (chains : List Chain) {α : Type} (x : Eval α) : Prop :=
  ∀ σ, σ.Reachable s chains → (after σ x).Reachable s chains

namespace Stays

variable {s : Setting} {chains : List Chain} {α β : Type}

theorem bind {x : Eval α} {f : α → Eval β} (hx : Stays s chains x) (hf : ∀ a, Stays s chains (f a)) :
    Stays s chains (x >>= f) := by
  intro σ hσ
  cases h : resultIn σ x with
  | ok a =>
    rw [after_bind_ok h]
    exact hf a _ (hx σ hσ)
  | error e =>
    rw [after_bind_error h]
    exact hx σ hσ

theorem root {c : Chain} (hc : c ∈ chains) (hx : Stays s chains (select .once s c.path (.root s.doc))) :
    Stays s chains (once c.occurrence (select .once s c.path (.root s.doc))) := by
  intro σ hσ
  cases hk : σ.root? c.occurrence with
  | some found =>
    rw [(once_known hk).2]
    exact hσ
  | none =>
    have hentered := hσ.logged (.enter c.occurrence)
    have hleft := hx _ hentered
    cases hf : resultIn (logged σ (.enter c.occurrence)) (select .once s c.path (.root s.doc)) with
    | error e =>
      rw [(once_error hk (resultIn_anew.trans hf)).2, after_anew_error hf]
      exact hleft
    | ok found =>
      rw [(once_ok hk (resultIn_anew.trans hf)).2, after_anew_ok hf]
      exact (hleft.logged _).stored hc hentered hf

/-- Every step of an evaluation stays among the sessions that can be reached. -/
def simulation (s : Setting) (chains : List Chain) : Simulation .once .once s where
  Admits c := c ∈ chains
  Related _ x _ := Stays s chains x
  pure _ := fun _ hσ => hσ
  throw _ := fun _ hσ => hσ
  bind := bind
  call f arguments := fun _ hσ => by
    rw [after_call]
    exact hσ.logged _
  root hc _ _ hx := root hc hx

end Stays

namespace Query

variable {env : Env} {text : String} {q : Query} {s : Setting} {path : List Selector} {σ : Session}

theorem stays_select (hp : pathChains path ⊆ programChains q.program) (n : Node) :
    Stays s (programChains q.program) (select .once s path n) :=
  (Stays.simulation s _).select_related path n ⟨hp, fun _ hc => hp hc⟩

/-- What is known in a session that can be reached is what evaluating it anew gives. -/
theorem faithful_of_reachable (h : compileWith env text = .ok q) (hσ : σ.Reachable s (programChains q.program)) :
    σ.Faithful s (programChains q.program) := by
  induction hσ with
  | empty => exact Session.faithful_empty
  | logged e _ ih => exact Session.faithful_logged.2 ih
  | @stored σ τ c found _ hc _ hf ih ihτ =>
    refine ih.stored (occurrences_nodup h) hc fun υ => ?_
    have hsub : pathChains c.path ⊆ programChains q.program :=
      fun d hd => (programChains_sublist q.program hc).subset (List.mem_cons_of_mem c hd)
    rw [← (agrees h s hsub (.root s.doc) τ υ ihτ).1, hf]

theorem has_of_select (h : compileWith env text = .ok q) (hp : pathChains path ⊆ programChains q.program)
    (hσ : σ.Reachable s (programChains q.program)) {n : Node} {m : Matches}
    (hm : resultIn σ (select .once s path n) = .ok m) : m.Has (.ofPath path) := by
  rw [(agrees h s hp n σ σ (faithful_of_reachable h hσ)).1] at hm
  exact ofKind_select path n σ m hm

end Query

/-- What a path has selected, and what it is as an operand. -/
structure Matches.Selected (path : List Selector) (m : Matches) : Prop where
  kind : m.kind = .many ↔ ∃ x ∈ path, x.Multiplies
  single : (¬∃ x ∈ path, x.Multiplies) → m.nodes.length ≤ 1 ∧
    ∀ l, (m.toNode l).value = (m.nodes.head?.map (·.value)).getD .null
  many : (∃ x ∈ path, x.Multiplies) → ∀ l, (m.toNode l).value = .array (m.nodes.map (·.value))

theorem Matches.Has.selected {path : List Selector} {m : Matches} (h : m.Has (.ofPath path)) : m.Selected path := by
  obtain ⟨ns, kind⟩ := m
  obtain ⟨hk, hl⟩ := h
  dsimp only at hk hl
  subst hk
  refine ⟨Kind.ofPath_eq_many, ?_, ?_⟩
  · intro hpath
    have hsingle : Kind.ofPath path = .single := by
      cases hk : Kind.ofPath path with
      | single => rfl
      | many => exact absurd (Kind.ofPath_eq_many.1 hk) hpath
    refine ⟨hl hsingle, fun l => ?_⟩
    rw [hsingle]
    match ns, hl hsingle with
    | [], _ => rfl
    | [n], _ => rfl
  · intro hpath l
    rw [Kind.ofPath_eq_many.2 hpath]
    rfl

/-- Operators and calls take what a path has selected as one value. -/
structure Matches.TakenAsValue (s : Setting) (n : Node) (m : Matches) : Prop where
  unary : ∀ op stack, execute .once s (.unary op) n (.found m :: stack) =
    pure (.node (n.compute (op.apply (m.toNode n.location).value)) :: stack)
  right : ∀ op left stack, execute .once s (.binary op) n (.found m :: left :: stack) =
    pure (.node (op.applyNode n (left.toNode n.location) (m.toNode n.location)) :: stack)
  left : ∀ op right stack, execute .once s (.binary op) n (right :: .found m :: stack) =
    pure (.node (op.applyNode n (m.toNode n.location) (right.toNode n.location)) :: stack)
  argument : ∀ p stack σ, resultIn σ (run .once s p n []) = .ok (.found m :: stack) →
    resultIn σ (runArguments .once s [p] n) = .ok [(m.toNode n.location).value]

theorem Matches.takenAsValue (s : Setting) (n : Node) (m : Matches) : m.TakenAsValue s n := by
  refine ⟨fun op stack => ?_, fun op left stack => ?_, fun op right stack => ?_, fun p stack σ h => ?_⟩
  · rw [execute]
    rfl
  · rw [execute]
    rfl
  · rw [execute]
    rfl
  · rw [runArguments, runArguments, resultIn_bind_ok h]
    rfl

namespace Query

variable {env : Env} {text : String} {q : Query}

/-- Whether a path operand is single-valued depends on the query alone. Wherever a path of a compiled query, or the rest
of one, is evaluated, in any session that can be reached, it leads to a session that can be reached, and what it selects
is of the kind of many nodes just if the path has a wildcard, a descent, a slice, a union or a filter. Of any other path
it is one node or none. Operators and calls take it as one value: of such a path an array of all values, of any other
null or the value of the only node. -/
theorem operand_kinds (h : compileWith env text = .ok q) (s : Setting) :
    Session.empty.Reachable s (programChains q.program) ∧
    ∀ before path, q.program.HasPath (before ++ path) → ∀ σ, σ.Reachable s (programChains q.program) → ∀ n,
      (after σ (select .once s path n)).Reachable s (programChains q.program) ∧
      (∀ m, resultIn σ (select .once s path n) = .ok m → m.Selected path) ∧
      ∀ top stack left, resultIn σ (execute .once s (.path path) n (top :: stack)) = .ok left →
        ∃ m, left = .found m :: stack ∧ m.Selected path ∧ m.TakenAsValue s n := by
  refine ⟨.empty, ?_⟩
  intro before path hpath σ hσ n
  have hp : pathChains path ⊆ programChains q.program :=
    fun c hc => hpath.chains_subset (pathChains_subset_append before path hc)
  refine ⟨stays_select hp n σ hσ, fun m hm => (has_of_select h hp hσ hm).selected, ?_⟩
  intro top stack left hleft
  rw [execute] at hleft
  cases hm : resultIn σ (select .once s path (top.toNode n.location)) with
  | error e =>
    rw [resultIn_bind_error hm] at hleft
    cases hleft
  | ok m =>
    rw [resultIn_bind_ok hm] at hleft
    cases hleft
    exact ⟨m, rfl, (has_of_select h hp hσ hm).selected, m.takenAsValue s n⟩

/-- Nothing matches, but the path with a wildcard is an array and the other is null. -/
theorem operand_kinds_unmatched :
    let s : Setting := ⟨.array [.null], true⟩
    ∃ q, compileWith (.standard []) "$[?@.x[*] == $.y.z]" = .ok q ∧
      Matches.Selected [.current, .member "x", .wildcard] ⟨[], .many⟩ ∧
      Matches.Selected [.root 1, .member "y", .member "z"] ⟨[], .single⟩ ∧
      Matches.TakenAsValue s (.root .null) ⟨[], .many⟩ := by
  intro s
  have h : compileWith (.standard []) "$[?@.x[*] == $.y.z]" = .ok ⟨[.root, .path [.root 0, .filter [
      .current, .path [.current, .member "x", .wildcard],
      .root, .path [.root 1, .member "y", .member "z"], .binary .eq]]]⟩ := compileWith_of_runFor (k := 40) rfl
  obtain ⟨hempty, hkinds⟩ := operand_kinds h s
  have houter : Program.HasPath [.root, .path [.root 0, .filter [
      .current, .path [.current, .member "x", .wildcard],
      .root, .path [.root 1, .member "y", .member "z"], .binary .eq]]] _ := .operand (List.mem_of_getElem? (i := 1) rfl)
  have hinner : ∀ path, Instr.path path ∈ _ → Program.HasPath _ path := fun path hp =>
    .inside houter (List.mem_of_getElem? (i := 1) rfl) (List.mem_singleton_self _) (.operand hp)
  have hwild := hkinds [] _ (hinner _ (List.mem_of_getElem? (i := 1) rfl)) .empty hempty
  have hplain := hkinds [] _ (hinner _ (List.mem_of_getElem? (i := 3) rfl)) .empty hempty
  obtain ⟨m, hm, hselected, htaken⟩ := (hwild (.root .null)).2.2 (.node (.root .null)) [] _ rfl
  cases hm
  exact ⟨_, h, hselected, (hplain (.root .null)).2.1 _ rfl, htaken⟩

end Query

end PathQuery
