import PathQuery.Proofs.Json.Edges
import PathQuery.Proofs.Query.Calls
import PathQuery.Proofs.Query.Layout

namespace PathQuery

open Eval

/-- The length of an array or string. -/
def Value.size? : Value → Option Nat
  | array vs => some vs.length
  | string s => some s.length
  | _ => none

namespace Node

/-- The ways in which a path leads to a node, given the calls that have been made. -/
inductive Origin (doc : Value) (keep : Bool) (calls : List Call) : Node → Prop
  | root : Origin doc keep calls (.root doc)
  | child {n : Node} {s : Step} {v : Value} (hn : Origin doc keep calls n) (h : (s, v) ∈ n.value.edges) :
      Origin doc keep calls (n.child keep s v)
  | result {n : Node} {c : Call} {v : Value} (hn : Origin doc keep calls n) (hc : c ∈ calls)
      (h : c.function.body c.arguments = .ok v) : Origin doc keep calls (n.compute v)
  | length {n : Node} {k : Nat} (hn : Origin doc keep calls n) (h : n.value.size? = some k) :
      Origin doc keep calls (n.length keep k)

namespace Origin

variable {doc : Value} {keep : Bool} {calls later : List Call} {n k : Node}

theorem mono (h : n.Origin doc keep calls) (hs : calls ⊆ later) : n.Origin doc keep later := by
  induction h with
  | root => exact .root
  | child _ hv ih => exact ih.child hv
  | result _ hc hv ih => exact ih.result (hs hc) hv
  | length _ hk ih => exact ih.length hk

theorem element? (hn : n.Origin doc keep calls) {i : Nat} (h : n.element? keep i = some k) :
    k.Origin doc keep calls := by
  obtain ⟨v, hv, rfl⟩ := Option.map_eq_some_iff.1 h
  exact hn.child (Step.mem_edges_of_child? (s := .index i) hv)

theorem member? (hn : n.Origin doc keep calls) {name : String} (h : n.member? keep name = some k) :
    k.Origin doc keep calls := by
  obtain ⟨v, hv, rfl⟩ := Option.map_eq_some_iff.1 h
  exact hn.child (Step.mem_edges_of_child? (s := .name name) hv)

theorem at? (hn : n.Origin doc keep calls) {i : Int} (h : n.at? keep i = some k) : k.Origin doc keep calls := by
  obtain ⟨j, -, hj⟩ := Option.bind_eq_some_iff.1 h
  exact hn.element? hj

theorem named? (hn : n.Origin doc keep calls) {name : String} (h : n.named? keep name = some k) :
    k.Origin doc keep calls := by
  unfold Node.named? at h
  split at h
  · exact hn.member? h
  · next vs hv =>
    split at h
    · exact hn.at? h
    · split at h
      · cases h
        exact hn.length (by rw [hv]; rfl)
      · cases h
  · next s hv =>
    split at h
    · cases h
      exact hn.length (by rw [hv]; rfl)
    · cases h
  · cases h

theorem keyed? (hn : n.Origin doc keep calls) {key : Value} (h : n.keyed? keep key = some k) :
    k.Origin doc keep calls := by
  unfold Node.keyed? at h
  split at h
  · obtain ⟨i, -, hi⟩ := Option.bind_eq_some_iff.1 h
    exact hn.at? hi
  · obtain ⟨name, -, hm⟩ := Option.bind_eq_some_iff.1 h
    exact hn.member? hm
  · cases h

theorem elements (hn : n.Origin doc keep calls) (hk : k ∈ n.elements keep) : k.Origin doc keep calls := by
  obtain ⟨⟨v, i⟩, hv, rfl⟩ := List.mem_map.1 hk
  refine hn.child ?_
  cases hvalue : n.value with
  | array vs =>
    rw [hvalue] at hv
    exact Value.mem_edges_array.2 ⟨i, rfl, List.mk_mem_zipIdx_iff_getElem?.1 hv⟩
  | _ => simp [hvalue, Value.elements] at hv

theorem members (hn : n.Origin doc keep calls) (hk : k ∈ n.members keep) : k.Origin doc keep calls := by
  obtain ⟨⟨name, v⟩, hv, rfl⟩ := List.mem_map.1 hk
  refine hn.child ?_
  cases hvalue : n.value with
  | object ms =>
    rw [hvalue] at hv
    exact Value.mem_edges_object.2 ⟨name, rfl, hv⟩
  | _ => simp [hvalue, Value.members] at hv

theorem children (hn : n.Origin doc keep calls) (hk : k ∈ n.children keep) : k.Origin doc keep calls := by
  rcases List.mem_append.1 hk with hk | hk
  · exact hn.elements hk
  · exact hn.members hk

theorem sliced (hn : n.Origin doc keep calls) {s : Slice} (hk : k ∈ n.sliced keep s) : k.Origin doc keep calls := by
  obtain ⟨i, -, hi⟩ := List.mem_filterMap.1 hk
  exact hn.element? hi

theorem candidates (hn : n.Origin doc keep calls) (hk : k ∈ n.candidates keep) : k.Origin doc keep calls := by
  unfold Node.candidates at hk
  split at hk
  · exact hn.elements hk
  · obtain rfl : k = n := by simpa using hk
    exact hn
  · cases hk

mutual

theorem containersAt (l : Location) (computed : Bool) : ∀ v : Value, Origin doc keep calls ⟨l, v, computed⟩ →
    ∀ k ∈ Node.containersAt keep l computed v, k.Origin doc keep calls
  | .array vs, hn, k, hk => by
    rw [Node.containersAt] at hk
    rcases List.mem_cons.1 hk with rfl | hk
    · exact hn
    · refine elementContainers l computed 0 vs ?_ k hk
      intro i v hv
      exact hn.child (Value.mem_edges_array.2 ⟨i, by simp, hv⟩)
  | .object ms, hn, k, hk => by
    rw [Node.containersAt] at hk
    rcases List.mem_cons.1 hk with rfl | hk
    · exact hn
    · refine memberContainers l computed ms ?_ k hk
      intro name v hv
      exact hn.child (Value.mem_edges_object.2 ⟨name, rfl, hv⟩)
  | .null, _, k, hk | .bool _, _, k, hk | .number _, _, k, hk | .string _, _, k, hk => by
    simp [Node.containersAt] at hk

theorem elementContainers (l : Location) (computed : Bool) : ∀ (i : Nat) (vs : List Value),
    (∀ j v, vs[j]? = some v →
      Origin doc keep calls ⟨if keep then l.child (.index (i + j)) else .root, v, computed⟩) →
    ∀ k ∈ Node.elementContainers keep l computed i vs, k.Origin doc keep calls
  | _, [], _, k, hk => by
    simp [Node.elementContainers] at hk
  | i, v :: vs, hn, k, hk => by
    rw [Node.elementContainers] at hk
    rcases List.mem_append.1 hk with hk | hk
    · exact containersAt _ computed v (hn 0 v rfl) k hk
    · refine elementContainers l computed (i + 1) vs ?_ k hk
      intro j w hw
      have hj := hn (j + 1) w (by simpa using hw)
      rwa [← Nat.add_assoc, Nat.add_right_comm] at hj

theorem memberContainers (l : Location) (computed : Bool) : ∀ ms : List (String × Value),
    (∀ name v, (name, v) ∈ ms →
      Origin doc keep calls ⟨if keep then l.child (.name name) else .root, v, computed⟩) →
    ∀ k ∈ Node.memberContainers keep l computed ms, k.Origin doc keep calls
  | [], _, k, hk => by
    simp [Node.memberContainers] at hk
  | (name, v) :: ms, hn, k, hk => by
    rw [Node.memberContainers] at hk
    rcases List.mem_append.1 hk with hk | hk
    · exact containersAt _ computed v (hn name v (by simp)) k hk
    · refine memberContainers l computed ms ?_ k hk
      intro other w hw
      exact hn other w (List.mem_cons_of_mem _ hw)

end

theorem containers (hn : n.Origin doc keep calls) (hk : k ∈ n.containers keep) : k.Origin doc keep calls :=
  containersAt n.location n.computed n.value hn k hk

end Origin

end Node

/-- A computation takes no call back, and what it gives has a property that may speak of the calls made so far. It
starts in any session in which some calls are known. -/
def Gives {α : Type} (known : List Call) (p : List Call → α → Prop) (x : Eval α) : Prop :=
  ∀ σ, known ⊆ σ.calls → σ.calls ⊆ (after σ x).calls ∧ ∀ a, resultIn σ x = .ok a → p (after σ x).calls a

namespace Gives

variable {α β : Type} {known : List Call} {p : List Call → α → Prop} {q : List Call → β → Prop}

theorem pure {a : α} (h : ∀ later, known ⊆ later → p later a) : Gives known p (Pure.pure a : Eval α) := by
  intro σ hσ
  refine ⟨List.Subset.refl _, ?_⟩
  intro b hb
  cases hb
  exact h _ hσ

theorem bind {x : Eval α} {f : α → Eval β} (hx : Gives known p x)
    (hf : ∀ later a, known ⊆ later → p later a → Gives later q (f a)) : Gives known q (x >>= f) := by
  intro σ hσ
  obtain ⟨hk, ha⟩ := hx σ hσ
  cases h : resultIn σ x with
  | error e =>
    rw [after_bind_error h, resultIn_bind_error h]
    exact ⟨hk, fun _ hb => nomatch hb⟩
  | ok a =>
    rw [after_bind_ok h, resultIn_bind_ok h]
    obtain ⟨hkf, hb⟩ := hf _ a (List.Subset.trans hσ hk) (ha a h) _ (List.Subset.refl _)
    exact ⟨List.Subset.trans hk hkf, hb⟩

theorem of_keepsCalls {x : Eval α} (h : KeepsCalls x) : Gives known (fun _ _ => True) x := by
  intro σ _
  exact ⟨h σ, fun _ _ => trivial⟩

theorem mapM {f : α → Eval β} {as : List α} (hq : ∀ {calls later b}, q calls b → calls ⊆ later → q later b)
    (h : ∀ a ∈ as, ∀ later, known ⊆ later → Gives later q (f a)) :
    Gives known (fun calls bs => ∀ b ∈ bs, q calls b) (as.mapM f) := by
  induction as generalizing known with
  | nil => exact pure (by simp)
  | cons a as ih =>
    rw [List.mapM_cons]
    refine bind (h a (by simp) known (List.Subset.refl _)) ?_
    intro behind b hbehind hb
    refine bind (ih fun c hc later hl => h c (List.mem_cons_of_mem _ hc) later (List.Subset.trans hbehind hl)) ?_
    intro last bs hlast hbs
    refine pure ?_
    intro later hlater c hc
    rcases List.mem_cons.1 hc with rfl | hc
    · exact hq hb (List.Subset.trans hlast hlater)
    · exact hq (hbs c hc) hlater

end Gives

/-- Every match comes from the document or from a call. -/
def Matches.Origins (doc : Value) (keep : Bool) (calls : List Call) (m : Matches) : Prop :=
  ∀ n ∈ m.nodes, n.Origin doc keep calls

namespace Matches

variable {s : Setting} {known : List Call} {go : Node → Eval Matches}

theorem origins_nil (kind : Kind) (calls : List Call) : Origins s.doc s.keep calls ⟨[], kind⟩ := by
  intro n hn
  cases hn

/-- Wherever a path goes on, it keeps to nodes with an origin. -/
def Continues (s : Setting) (go : Node → Eval Matches) : Prop :=
  ∀ calls n, n.Origin s.doc s.keep calls → Gives calls (Origins s.doc s.keep) (go n)

theorem collect_origins {ns : List Node} (hns : ∀ n ∈ ns, n.Origin s.doc s.keep known) (hg : Continues s go) :
    Gives known (Origins s.doc s.keep) (Eval.collect go ns) := by
  refine Gives.bind (Gives.mapM (fun h hs n hn => (h n hn).mono hs)
    fun n hn later hl => hg later n ((hns n hn).mono hl)) ?_
  intro calls ms _ hms
  refine Gives.pure ?_
  intro later hl n hn
  obtain ⟨m, hm, hn⟩ := List.mem_flatMap.1 hn
  exact (hms m hm n hn).mono hl

theorem goOn_origins {n : Option Node} (hn : ∀ k, n = some k → k.Origin s.doc s.keep known) (hg : Continues s go)
    (kind : Kind) : Gives known (Origins s.doc s.keep) (Eval.goOn go kind n) := by
  cases n with
  | none => exact Gives.pure fun calls _ => origins_nil kind calls
  | some n => exact hg known n (hn n rfl)

theorem anew_origins {x : Eval Matches} (hx : Gives known (Origins s.doc s.keep) x) (i : Nat) :
    Gives known (Origins s.doc s.keep) (Strategy.anew i x) := by
  intro σ hσ
  rw [calls_anew, Strategy.resultIn_anew]
  exact hx (logged σ (.enter i)) hσ

theorem call_origins {n : Node} (hn : n.Origin s.doc s.keep known) (f : Function) (arguments : List Value) :
    Gives known (fun calls v => (n.compute v).Origin s.doc s.keep calls) (Eval.call f arguments) := by
  intro σ hσ
  rw [after_call, resultIn_call]
  refine ⟨List.subset_cons_self _ _, ?_⟩
  intro v hv
  have hk := List.Subset.trans hσ (List.subset_cons_self (Call.mk f arguments) σ.calls)
  exact (hn.mono hk).result (c := ⟨f, arguments⟩) List.mem_cons_self hv

/-- The nodes that a program leaves on top of its stack. -/
def Leaves (s : Setting) (calls : List Call) (stack : List Operand) : Prop :=
  Gives calls (Origins s.doc s.keep) (Operand.result stack)

theorem Leaves.mono {later : List Call} {stack : List Operand} (h : Leaves s known stack) (hl : known ⊆ later) :
    Leaves s later stack := by
  intro σ hσ
  exact h σ (List.Subset.trans hl hσ)

theorem leaves_node {n : Node} (hn : n.Origin s.doc s.keep known) : Leaves s known [.node n] := by
  refine Gives.pure ?_
  intro later hl k hk
  obtain rfl : k = n := by simpa [Operand.toMatches] using hk
  exact hn.mono hl

theorem leaves_found {m : Matches} (hm : m.Origins s.doc s.keep known) : Leaves s known [.found m] :=
  Gives.pure fun _ hl n hn => (hm n hn).mono hl

/-- A starting point puts a node with an origin on the stack. -/
theorem execute_origin {i : Instr} (hi : i.IsAnchor) {n : Node} (hn : n.Origin s.doc s.keep known) :
    Gives known (fun calls stack => ∃ k : Node, stack = [.node k] ∧ k.Origin s.doc s.keep calls)
      (execute .anew s i n []) := by
  cases hi with
  | root =>
    simp only [execute]
    exact Gives.pure fun _ _ => ⟨_, rfl, .root⟩
  | current =>
    simp only [execute]
    exact Gives.pure fun _ hl => ⟨n, rfl, hn.mono hl⟩

/-- What is evaluated on the way takes no call back. -/
theorem gives_run (p : List Instr) (n : Node) :
    Gives known (fun _ _ => True) (run .anew s p n []) :=
  Gives.of_keepsCalls
    ((KeepsCalls.simulation s).run_related p n [] ⟨fun _ hc => hc, fun _ _ => trivial⟩)

theorem gives_result (stack : List Operand) : Gives known (fun _ _ => True) (Operand.result stack) := by
  refine Gives.of_keepsCalls ?_
  intro σ
  cases stack <;> exact List.Subset.refl _

theorem gives_runArguments (arguments : List (List Instr)) (n : Node) :
    Gives known (fun _ _ => True) (runArguments .anew s arguments n) :=
  Gives.of_keepsCalls
    ((KeepsCalls.simulation s).runArguments_related arguments n ⟨fun _ hc => hc, fun _ _ => trivial⟩)

mutual

theorem follow_origins : ∀ (x : Selector) {go : Node → Eval Matches} (kind : Kind) (n : Node) {known : List Call},
    x.Tidy → n.Origin s.doc s.keep known → Continues s go →
    Gives known (Origins s.doc s.keep) (follow .anew s x go kind n)
  | .root i, _, _, _, _, _, _, hg => by
    simp only [follow]
    exact anew_origins (hg _ _ .root) i
  | .current, _, _, n, _, _, hn, hg => by
    simp only [follow]
    exact hg _ n hn
  | .member name, _, kind, n, _, _, hn, hg => by
    simp only [follow]
    exact goOn_origins (fun _ h => hn.named? h) hg kind
  | .index i, _, kind, n, _, _, hn, hg => by
    simp only [follow]
    exact goOn_origins (fun _ h => hn.at? h) hg kind
  | .wildcard, _, _, n, _, _, hn, hg => by
    simp only [follow]
    exact collect_origins (fun _ h => hn.children h) hg
  | .descend, _, _, n, _, _, hn, hg => by
    simp only [follow]
    exact collect_origins (fun _ h => hn.containers h) hg
  | .slice range, _, _, n, _, _, hn, hg => by
    simp only [follow]
    exact collect_origins (fun _ h => hn.sliced h) hg
  | .union branches, _, _, n, _, hx, hn, hg => by
    simp only [follow]
    have hb : ∀ p ∈ branches, Program.Trail p := by
      cases hx with
      | union hb => exact hb
      | other hne => exact absurd rfl (hne branches)
    refine Gives.bind (selectBranches_origins branches n hb hn hg) ?_
    intro calls ns _ hns
    exact Gives.pure fun _ hl k hk => (hns k hk).mono hl
  | .filter test, _, _, n, _, _, hn, hg => by
    simp only [follow]
    refine collect_origins (fun _ h => hn.candidates h) ?_
    intro calls k hk
    refine Gives.bind (gives_run test k) ?_
    intro behind stack hb _
    refine Gives.bind (gives_result stack) ?_
    intro later found hl _
    have hk := (hk.mono hb).mono hl
    cases found.holds with
    | true => exact hg _ k hk
    | false => exact Gives.pure fun calls _ => origins_nil _ calls
  | .computed key, _, kind, n, _, _, hn, hg => by
    simp only [follow]
    refine Gives.bind (gives_run key n) ?_
    intro behind stack hb _
    refine Gives.bind (gives_result stack) ?_
    intro later found hl _
    have hn := (hn.mono hb).mono hl
    split
    · exact goOn_origins (fun _ h => hn.keyed? h) hg kind
    · exact Gives.pure fun calls _ => origins_nil _ calls
  | .call f arguments, _, _, n, _, _, hn, hg => by
    simp only [follow]
    refine Gives.bind (gives_runArguments arguments n) ?_
    intro later values hl _
    refine Gives.bind (call_origins (hn.mono hl) f values) ?_
    intro calls v _ hv
    exact hg calls _ hv

theorem select_origins : ∀ (path : List Selector), (∀ x ∈ path, Selector.Tidy x) →
    Continues s (select .anew s path)
  | [], _, calls, n, hn => by
    simp only [select]
    refine Gives.pure ?_
    intro later hl k hk
    obtain rfl : k = n := by simpa using hk
    exact hn.mono hl
  | x :: path, ht, calls, n, hn => by
    simp only [select]
    exact follow_origins x _ n (ht x (by simp)) hn
      (select_origins path fun y hy => ht y (List.mem_cons_of_mem _ hy))

theorem selectBranches_origins : ∀ (branches : List (List Instr)) {go : Node → Eval Matches} (n : Node)
    {known : List Call}, (∀ p ∈ branches, Program.Trail p) → n.Origin s.doc s.keep known → Continues s go →
    Gives known (fun calls ns => ∀ n ∈ ns, n.Origin s.doc s.keep calls) (selectBranches .anew s branches n go)
  | [], _, _, _, _, _, _ => by
    simp only [selectBranches]
    exact Gives.pure (by simp)
  | branch :: branches, _, n, _, hb, hn, hg => by
    simp only [selectBranches]
    refine Gives.bind (run_origins branch n (hb branch (by simp)) hn) ?_
    intro c₁ stack h₁ hstack
    refine Gives.bind hstack ?_
    intro c₂ starts h₂ hstarts
    refine Gives.bind (collect_origins hstarts hg) ?_
    intro c₃ found h₃ hfound
    have hrest : ∀ p ∈ branches, Program.Trail p := fun p hp => hb p (List.mem_cons_of_mem _ hp)
    have hn := ((hn.mono h₁).mono h₂).mono h₃
    refine Gives.bind (selectBranches_origins branches n hrest hn hg) ?_
    intro c₄ others h₄ hothers
    refine Gives.pure ?_
    intro later hl k hk
    rcases List.mem_append.1 hk with hk | hk
    · exact ((hfound k hk).mono h₄).mono hl
    · exact (hothers k hk).mono hl

/-- A program that only follows a path leaves matches with an origin. -/
theorem run_origins : ∀ (p : List Instr) (n : Node) {known : List Call}, Program.Trail p →
    n.Origin s.doc s.keep known → Gives known (Leaves s) (run .anew s p n [])
  | [], _, _, hp, _ => by cases hp
  | [i], n, _, hp, hn => by
    have hi : i.IsAnchor := by
      cases hp with
      | anchor hi => exact hi
    simp only [run]
    refine Gives.bind (execute_origin hi hn) ?_
    intro calls _ _ hex
    obtain ⟨k, rfl, hk⟩ := hex
    exact Gives.pure fun _ hl => leaves_node (hk.mono hl)
  | [i, .path steps], n, _, hp, hn => by
    obtain ⟨hi, hs⟩ : i.IsAnchor ∧ ∀ x ∈ steps, x.Tidy := by
      cases hp with
      | path hi hs => exact ⟨hi, hs⟩
    simp only [run]
    refine Gives.bind (execute_origin hi hn) ?_
    intro calls _ _ hex
    obtain ⟨k, rfl, hk⟩ := hex
    have hpath : Gives calls (Leaves s) (execute .anew s (.path steps) n [.node k]) := by
      simp only [execute]
      refine Gives.bind (select_origins steps hs _ k hk) ?_
      intro found m _ hm
      exact Gives.pure fun _ hl => leaves_found fun n hn => (hm n hn).mono hl
    refine Gives.bind hpath ?_
    intro found stack _ hstack
    exact Gives.pure fun _ hl => hstack.mono hl
  | [_, .root], _, _, hp, _ | [_, .current], _, _, hp, _ | [_, .literal _], _, _, hp, _ | [_, .unary _], _, _, hp, _
  | [_, .binary _], _, _, hp, _ | _ :: _ :: _ :: _, _, _, hp, _ => by cases hp

end

end Matches

/-- The matches of a compiled query come from the document or from calls that its evaluation makes. -/
theorem Query.search_origins {env : Env} {text : String} {q : Query} (h : compileWith env text = .ok q)
    {keep : Bool} {doc : Value} {m : Matches} (hm : (q.search keep doc).result = .ok m) :
    m.Origins doc keep (q.search keep doc).calls := by
  rw [search_eq_searchBy_anew h] at hm
  have hg : Gives [] (Matches.Origins doc keep)
      (PathQuery.evaluate .anew ⟨doc, keep⟩ q.program (.root doc)) := by
    refine Gives.bind (Matches.run_origins (s := ⟨doc, keep⟩) q.program (.root doc) (trail h) .root) ?_
    intro calls stack _ hstack
    exact hstack
  intro n hn
  have hn := (hg .empty (List.nil_subset _)).2 m hm n hn
  refine hn.mono ?_
  intro c hc
  refine searchBy_anew_calls_subset h keep doc ?_
  rw [searchBy_calls, List.mem_reverse]
  exact hc

end PathQuery
