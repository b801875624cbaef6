import PathQuery.Proofs.Query.Renumber

namespace PathQuery

open Eval Strategy

section lists

variable {α β γ : Type}

/-- What is found from each of some things, one after the other. -/
inductive Each (R : α → List β → Prop) : List α → List β → Prop
  | nil : Each R [] []
  | cons {a : α} {as : List α} {bs cs : List β} (h : R a bs) (hs : Each R as cs) : Each R (a :: as) (bs ++ cs)

variable {R : α → List β → Prop}

theorem each_nil {bs : List β} : Each R [] bs ↔ bs = [] := by
  constructor
  · rintro ⟨⟩
    rfl
  · rintro rfl
    exact .nil

theorem each_cons {a : α} {as : List α} {ds : List β} :
    Each R (a :: as) ds ↔ ∃ bs cs, R a bs ∧ Each R as cs ∧ ds = bs ++ cs := by
  constructor
  · intro h
    cases h with
    | cons h hs => exact ⟨_, _, h, hs, rfl⟩
  · rintro ⟨bs, cs, h, hs, rfl⟩
    exact .cons h hs

theorem each_singleton {a : α} {bs : List β} : Each R [a] bs ↔ R a bs := by
  simp [each_cons, each_nil]

theorem each_congr {S : α → List β → Prop} {as : List α} (h : ∀ a ∈ as, ∀ bs, R a bs ↔ S a bs) (bs : List β) :
    Each R as bs ↔ Each S as bs := by
  induction as generalizing bs with
  | nil => rw [each_nil, each_nil]
  | cons a as ih =>
    have hs := ih fun b hb => h b (List.mem_cons_of_mem _ hb)
    simp only [each_cons, hs, h a List.mem_cons_self]

theorem Each.exists_of_mem {as : List α} {bs : List β} (h : Each R as bs) : ∀ a ∈ as, ∃ bs, R a bs := by
  induction h with
  | nil => simp
  | cons h _ ih => exact List.forall_mem_cons.2 ⟨⟨_, h⟩, ih⟩

/-- What is found if each thing that passes a test is kept. -/
theorem each_filter {e : α → Bool} {as bs : List α} :
    Each (fun a bs => bs = if e a then [a] else []) as bs ↔ bs = as.filter e := by
  induction as generalizing bs with
  | nil => simp [each_nil]
  | cons a as ih => cases h : e a <;> simp [each_cons, ih, h]

theorem each_append {as as' : List α} {ds : List β} :
    Each R (as ++ as') ds ↔ ∃ bs cs, Each R as bs ∧ Each R as' cs ∧ ds = bs ++ cs := by
  induction as generalizing ds with
  | nil => simp [each_nil]
  | cons a as ih =>
    simp only [List.cons_append, each_cons, ih]
    constructor
    · rintro ⟨bs, cs, h, ⟨bs', cs', hs, hs', rfl⟩, rfl⟩
      exact ⟨bs ++ bs', cs', ⟨bs, bs', h, hs, rfl⟩, hs', by simp⟩
    · rintro ⟨bs, cs, ⟨bs', cs', h, hs, rfl⟩, hs', rfl⟩
      exact ⟨bs', cs' ++ cs, h, ⟨cs', cs, hs, hs', rfl⟩, by simp⟩

/-- What is found from what is found. -/
theorem each_each {S : β → List γ → Prop} {as : List α} {cs : List γ} :
    Each (fun a cs => ∃ bs, R a bs ∧ Each S bs cs) as cs ↔ ∃ bs, Each R as bs ∧ Each S bs cs := by
  induction as generalizing cs with
  | nil => simp [each_nil]
  | cons a as ih =>
    simp only [each_cons, ih]
    constructor
    · rintro ⟨cs₁, cs₂, ⟨bs₁, h, h₁⟩, ⟨bs₂, hs, h₂⟩, rfl⟩
      exact ⟨bs₁ ++ bs₂, ⟨bs₁, bs₂, h, hs, rfl⟩, each_append.2 ⟨cs₁, cs₂, h₁, h₂, rfl⟩⟩
    · rintro ⟨_, ⟨bs₁, bs₂, h, hs, rfl⟩, hb⟩
      obtain ⟨cs₁, cs₂, h₁, h₂, rfl⟩ := each_append.1 hb
      exact ⟨cs₁, cs₂, ⟨bs₁, h, h₁⟩, ⟨bs₂, hs, h₂⟩, rfl⟩

theorem each_iff_forall₂ {as : List α} {bs : List β} :
    Each R as bs ↔ ∃ bss, List.Forall₂ R as bss ∧ bs = bss.flatten := by
  induction as generalizing bs with
  | nil => simp [each_nil]
  | cons a as ih =>
    simp only [each_cons, ih, List.forall₂_cons_left_iff]
    constructor
    · rintro ⟨bs, _, h, ⟨bss, hs, rfl⟩, rfl⟩
      exact ⟨bs :: bss, ⟨bs, bss, h, hs, rfl⟩, rfl⟩
    · rintro ⟨_, ⟨bs, bss, h, hs, rfl⟩, rfl⟩
      exact ⟨bs, _, h, ⟨bss, hs, rfl⟩, rfl⟩

end lists

namespace Eval

variable {α β : Type}

/-- Two computations give the same, in whatever sessions they start. -/
def Same (x y : Eval α) : Prop := ∀ σ τ, resultIn σ x = resultIn τ y

/-- What a computation gives does not depend on the session. -/
def Steady (x : Eval α) : Prop := Same x x

def Returns (x : Eval α) (a : α) : Prop := ∀ σ, resultIn σ x = .ok a

/-- The nodes that are found, of whatever kind the path is. -/
def Finds (x : Eval Matches) (ns : List Node) : Prop := ∃ kind, Returns x ⟨ns, kind⟩

variable {x y : Eval α} {f g : α → Eval β} {a : α} {b : β}

theorem Same.bind (hx : Same x y) (hf : ∀ a, Same (f a) (g a)) : Same (x >>= f) (y >>= g) := by
  intro σ τ
  cases h : resultIn σ x with
  | ok a =>
    rw [resultIn_bind_ok h, resultIn_bind_ok ((hx σ τ).symm.trans h)]
    exact hf a _ _
  | error e => rw [resultIn_bind_error h, resultIn_bind_error ((hx σ τ).symm.trans h)]

theorem same_call (f : Function) (arguments : List Value) : Same (call f arguments) (call f arguments) := by
  intro σ τ
  rw [resultIn_call, resultIn_call]

theorem steady_pure : Steady (pure a : Eval α) := fun _ _ => rfl

theorem Same.returns_iff (h : Same x y) : Returns x a ↔ Returns y a := by
  constructor
  · intro hx σ
    rw [← h σ σ, hx]
  · intro hy σ
    rw [h σ σ, hy]

theorem Same.finds_iff {x y : Eval Matches} (h : Same x y) {ns : List Node} : Finds x ns ↔ Finds y ns := by
  simp only [Finds, h.returns_iff]

theorem Steady.returns (hx : Steady x) {σ : Session} (h : resultIn σ x = .ok a) : Returns x a := by
  intro τ
  rw [hx τ σ, h]

theorem returns_pure {a a' : α} : Returns (pure a : Eval α) a' ↔ a = a' := by
  constructor
  · intro h
    exact Except.ok.inj (h .empty)
  · rintro rfl _
    rfl

theorem returns_bind (hx : Steady x) (hf : ∀ a, Steady (f a)) :
    Returns (x >>= f) b ↔ ∃ a, Returns x a ∧ Returns (f a) b := by
  constructor
  · intro h
    have hb := h .empty
    cases hr : resultIn .empty x with
    | ok a =>
      rw [resultIn_bind_ok hr] at hb
      exact ⟨a, hx.returns hr, (hf a).returns hb⟩
    | error e =>
      rw [resultIn_bind_error hr] at hb
      cases hb
  · rintro ⟨a, ha, hb⟩ σ
    rw [resultIn_bind_ok (ha σ), hb]

theorem finds_pure {m : Matches} {ns : List Node} : Finds (pure m) ns ↔ ns = m.nodes := by
  simp only [Finds, returns_pure]
  constructor
  · rintro ⟨kind, rfl⟩
    rfl
  · rintro rfl
    exact ⟨m.kind, rfl⟩

theorem finds_bind {f : α → Eval Matches} (hx : Steady x) (hf : ∀ a, Steady (f a)) {ns : List Node} :
    Finds (x >>= f) ns ↔ ∃ a, Returns x a ∧ Finds (f a) ns := by
  simp only [Finds, returns_bind hx hf]
  constructor
  · rintro ⟨kind, a, ha, h⟩
    exact ⟨a, ha, kind, h⟩
  · rintro ⟨a, ha, kind, h⟩
    exact ⟨kind, a, ha, h⟩

theorem exists_returns {x : Eval Matches} {P : List Node → Prop} :
    (∃ m, Returns x m ∧ P m.nodes) ↔ ∃ ns, Finds x ns ∧ P ns := by
  constructor
  · rintro ⟨m, hm, hp⟩
    exact ⟨m.nodes, ⟨m.kind, hm⟩, hp⟩
  · rintro ⟨ns, ⟨kind, hm⟩, hp⟩
    exact ⟨⟨ns, kind⟩, hm, hp⟩

/-- What two computations find, one after the other. -/
def both (x y : Eval Matches) : Eval Matches := do
  let m ← x
  let k ← y
  return ⟨m.nodes ++ k.nodes, .many⟩

theorem both_steady {x y : Eval Matches} (hx : Steady x) (hy : Steady y) : Steady (both x y) :=
  hx.bind fun _ => hy.bind fun _ => steady_pure

theorem finds_both {x y : Eval Matches} (hx : Steady x) (hy : Steady y) {ns : List Node} :
    Finds (both x y) ns ↔ ∃ bs cs, Finds x bs ∧ Finds y cs ∧ ns = bs ++ cs := by
  have hrest : ∀ m : Matches, Finds (do let k ← y; return ⟨m.nodes ++ k.nodes, .many⟩) ns ↔
      ∃ cs, Finds y cs ∧ ns = m.nodes ++ cs := by
    intro m
    rw [finds_bind hy fun _ => steady_pure]
    simp only [finds_pure]
    exact exists_returns (P := fun cs => ns = m.nodes ++ cs)
  rw [both, finds_bind hx fun _ => hy.bind fun _ => steady_pure]
  simp only [hrest]
  rw [exists_returns (P := fun bs => ∃ cs, Finds y cs ∧ ns = bs ++ cs)]
  simp only [exists_and_left]

theorem collect_nil (go : Node → Eval Matches) : collect go [] = pure ⟨[], .many⟩ := rfl

theorem collect_cons (go : Node → Eval Matches) (k : Node) (ks : List Node) :
    collect go (k :: ks) = both (go k) (collect go ks) := by
  simp [collect, both]

/-- A node alone. -/
def single (n : Node) : Eval Matches := pure ⟨[n], .single⟩

theorem single_steady (n : Node) : Steady (single n) := steady_pure

/-- A computation that goes on from nodes, given the kind of what it goes on with: it finds what is found from each of
the nodes that it comes to. -/
structure Threads (C : Kind → (Node → Eval Matches) → Eval Matches) : Prop where
  steady : ∀ kind {go : Node → Eval Matches}, (∀ n, Steady (go n)) → Steady (C kind go)
  finds : ∀ kind {go : Node → Eval Matches}, (∀ n, Steady (go n)) → ∀ {ns : List Node},
    Finds (C kind go) ns ↔ ∃ ks, Finds (C .single single) ks ∧ Each (fun k ys => Finds (go k) ys) ks ns

namespace Threads

variable {C D : Kind → (Node → Eval Matches) → Eval Matches}

theorem go (n : Node) : Threads fun _ go => go n := by
  refine ⟨fun _ _ hg => hg n, ?_⟩
  intro _ go _ ns
  simp [single, finds_pure, each_singleton]

theorem none (kind' : Kind → Kind) : Threads fun kind _ => pure ⟨[], kind' kind⟩ := by
  refine ⟨fun _ _ _ => steady_pure, ?_⟩
  intro _ go _ ns
  simp [finds_pure, each_nil]

theorem bind {x : Eval α} {C : α → Kind → (Node → Eval Matches) → Eval Matches} (hx : Steady x)
    (hC : ∀ a, Threads (C a)) : Threads fun kind go => x >>= fun a => C a kind go := by
  refine ⟨fun kind _ hg => hx.bind fun a => (hC a).steady kind hg, ?_⟩
  intro kind go hg ns
  rw [finds_bind hx fun a => (hC a).steady kind hg]
  simp only [(hC _).finds kind hg, finds_bind hx fun a => (hC a).steady .single single_steady]
  constructor
  · rintro ⟨a, ha, ks, hks, h⟩
    exact ⟨ks, ⟨a, ha, hks⟩, h⟩
  · rintro ⟨ks, ⟨a, ha, hks⟩, h⟩
    exact ⟨a, ha, ks, hks, h⟩

theorem both (hC : Threads C) (hD : Threads D) : Threads fun kind go => Eval.both (C kind go) (D kind go) := by
  refine ⟨fun kind _ hg => both_steady (hC.steady kind hg) (hD.steady kind hg), ?_⟩
  intro kind go hg ns
  rw [finds_both (hC.steady kind hg) (hD.steady kind hg)]
  simp only [hC.finds kind hg, hD.finds kind hg,
    finds_both (hC.steady .single single_steady) (hD.steady .single single_steady)]
  constructor
  · rintro ⟨bs, cs, ⟨ks, hks, hb⟩, ⟨ls, hls, hc⟩, rfl⟩
    exact ⟨ks ++ ls, ⟨ks, ls, hks, hls, rfl⟩, each_append.2 ⟨bs, cs, hb, hc, rfl⟩⟩
  · rintro ⟨_, ⟨ks, ls, hks, hls, rfl⟩, h⟩
    obtain ⟨bs, cs, hb, hc, rfl⟩ := each_append.1 h
    exact ⟨bs, cs, ⟨ks, hks, hb⟩, ⟨ls, hls, hc⟩, rfl⟩

theorem collect {C : Node → Kind → (Node → Eval Matches) → Eval Matches} (hC : ∀ n, Threads (C n)) (ls : List Node) :
    Threads fun kind go => Eval.collect (fun n => C n kind go) ls := by
  induction ls with
  | nil =>
    refine ⟨fun _ _ _ => steady_pure, ?_⟩
    intro _ go _ ns
    simp [collect_nil, finds_pure, each_nil]
  | cons n ls ih =>
    simp only [collect_cons]
    exact (hC n).both ih

theorem goOn (o : Option Node) : Threads fun kind go => Eval.goOn go kind o := by
  cases o with
  | none => exact none id
  | some n => exact go n

end Threads

end Eval

namespace Strategy

/-- A strategy takes the path wherever it is reached, and does nothing else that changes a result. -/
def Direct (t : Strategy) : Prop := ∀ i x σ, ∃ τ, resultIn σ (t i x) = resultIn τ x

theorem direct_anew : Direct anew := fun _ _ _ => ⟨_, resultIn_anew⟩

theorem Direct.renumber {t : Strategy} (ht : t.Direct) (f : Nat → Nat) : Direct fun i => t (f i) :=
  fun i => ht (f i)

variable {t u : Strategy}

theorem Direct.same (ht : t.Direct) (hu : u.Direct) {x y : Eval Matches} (h : Same x y) (i j : Nat) :
    Same (t i x) (u j y) := by
  intro σ τ
  obtain ⟨σ', hx⟩ := ht i x σ
  obtain ⟨τ', hy⟩ := hu j y τ
  rw [hx, hy, h]

theorem Direct.same_path (ht : t.Direct) {x : Eval Matches} (h : Steady x) (i : Nat) : Same (t i x) x := by
  intro σ τ
  obtain ⟨σ', hx⟩ := ht i x σ
  rw [hx, h]

/-- With two strategies that take every path, a query gives the same. -/
def Direct.simulation (ht : t.Direct) (hu : u.Direct) (s : Setting) : Simulation t u s where
  Admits _ := True
  Related _ x y := Same x y
  pure _ := fun _ _ => rfl
  throw _ := fun _ _ => rfl
  bind := Same.bind
  call := same_call
  root _ _ _ hx := ht.same hu hx _ _

end Strategy

variable {t u : Strategy} {s : Setting}

theorem select_same (ht : t.Direct) (hu : u.Direct) (path : List Selector) (n : Node) :
    Same (select t s path n) (select u s path n) :=
  (ht.simulation hu s).select_related path n ⟨fun _ hc => hc, fun _ _ => trivial⟩

/-- With a strategy that takes every path, the numbers of its occurrences do not matter. -/
theorem select_renumber_same (ht : t.Direct) (f : Nat → Nat) (path : List Selector) (n : Node) :
    Same (select t s (renumberPath f path) n) (select t s path n) := by
  rw [select_renumber]
  exact select_same (ht.renumber f) ht path n

theorem run_steady (ht : t.Direct) (p : Program) (n : Node) : Steady (run t s p n []) :=
  (ht.simulation ht s).run_related p n [] ⟨fun _ hc => hc, fun _ _ => trivial⟩

theorem runArguments_steady (ht : t.Direct) (arguments : List Program) (n : Node) :
    Steady (runArguments t s arguments n) :=
  (ht.simulation ht s).runArguments_related arguments n ⟨fun _ hc => hc, fun _ _ => trivial⟩

theorem result_steady (stack : List Operand) : Steady (Operand.result stack) := by
  cases stack <;> exact fun _ _ => rfl

theorem Strategy.Direct.threads {C : Kind → (Node → Eval Matches) → Eval Matches} (ht : t.Direct) (hC : Threads C)
    (i : Nat) : Threads fun kind go => t i (C kind go) := by
  refine ⟨fun kind _ hg => ht.same ht (hC.steady kind hg) i i, ?_⟩
  intro kind go hg ns
  rw [(ht.same_path (hC.steady kind hg) i).finds_iff, hC.finds kind hg]
  simp only [(ht.same_path (hC.steady .single single_steady) i).finds_iff]

/-- The branches of a bracket list are evaluated one after the other. -/
theorem union_cons (branch : Program) (branches : List Program) (n : Node) (go : Node → Eval Matches) :
    (do return ⟨← selectBranches t s (branch :: branches) n go, .many⟩ : Eval Matches) =
      run t s branch n [] >>= fun stack => Operand.result stack >>= fun starts =>
        both (Eval.collect go starts.nodes) (do return ⟨← selectBranches t s branches n go, .many⟩) := by
  simp [selectBranches, both]

theorem union_threads (ht : t.Direct) (branches : List Program) (n : Node) :
    Threads fun _ go => do return ⟨← selectBranches t s branches n go, .many⟩ := by
  induction branches with
  | nil =>
    simp only [selectBranches, pure_bind]
    exact .none fun _ => .many
  | cons branch branches ih =>
    simp only [union_cons]
    exact .bind (run_steady ht branch n) fun stack => .bind (result_steady stack) fun starts =>
      .both (.collect .go starts.nodes) ih

/-- A selector goes on from the nodes that it leads to. -/
theorem follow_threads (ht : t.Direct) (x : Selector) (n : Node) : Threads fun kind go => follow t s x go kind n := by
  cases x <;> simp only [follow]
  case root i => exact ht.threads (.go _) i
  case current => exact .go n
  case member name => exact .goOn _
  case index i => exact .goOn _
  case wildcard => exact .collect .go _
  case descend => exact .collect .go _
  case slice range => exact .collect .go _
  case union branches => exact union_threads ht branches n
  case filter test =>
    refine .collect (fun k => .bind (run_steady ht test k) fun stack => .bind (result_steady stack) fun found => ?_) _
    cases found.holds with
    | true => exact .go k
    | false => exact .none fun _ => .single
  case computed key =>
    refine .bind (run_steady ht key n) fun stack => .bind (result_steady stack) fun found => ?_
    split
    · exact .goOn _
    · exact .none id
  case call g arguments =>
    refine .bind (runArguments_steady ht arguments n) fun values => .bind (same_call g values) fun v => ?_
    exact .go (n.compute v)

theorem select_steady (ht : t.Direct) (path : List Selector) (n : Node) : Steady (select t s path n) :=
  select_same ht ht path n

theorem finds_select_cons (ht : t.Direct) (x : Selector) (path : List Selector) (n : Node) {ns : List Node} :
    Finds (select t s (x :: path) n) ns ↔
      ∃ ks, Finds (follow t s x single .single n) ks ∧ Each (fun k ys => Finds (select t s path k) ys) ks ns := by
  rw [select]
  exact (follow_threads ht x n).finds _ (select_steady ht path)

/-- What a path finds is found by its second part from each of the nodes that its first part finds. -/
theorem finds_select_append (ht : t.Direct) (path steps : List Selector) (n : Node) {ns : List Node} :
    Finds (select t s (path ++ steps) n) ns ↔
      ∃ ks, Finds (select t s path n) ks ∧ Each (fun k ys => Finds (select t s steps k) ys) ks ns := by
  induction path generalizing n ns with
  | nil =>
    rw [List.nil_append, select]
    simp [finds_pure, each_singleton]
  | cons x path ih =>
    rw [List.cons_append, finds_select_cons ht]
    simp only [ih, each_each, finds_select_cons ht x path]
    constructor
    · rintro ⟨js, hjs, ks, hks, h⟩
      exact ⟨ks, ⟨js, hjs, hks⟩, h⟩
    · rintro ⟨ks, ⟨js, hjs, hks⟩, h⟩
      exact ⟨js, hjs, ks, hks, h⟩

end PathQuery
