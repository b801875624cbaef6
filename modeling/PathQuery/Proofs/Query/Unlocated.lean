import PathQuery.Proofs.Query.Calls
import PathQuery.Proofs.Query.Standing

namespace PathQuery

open Eval Strategy

namespace Node

/-- The node as if it were found where locations are not kept. -/
def unlocated (n : Node) : Node := ⟨.root, n.value, n.computed⟩

variable {keep : Bool}

@[simp] theorem unlocated_value (n : Node) : n.unlocated.value = n.value := rfl

theorem unlocated_values (ns : List Node) : (ns.map unlocated).map (·.value) = ns.map (·.value) := by
  rw [List.map_map]
  rfl

theorem unlocated_elements (n : Node) : (n.elements keep).map unlocated = n.unlocated.elements false := by
  rw [elements, elements, List.map_map]
  rfl

theorem unlocated_members (n : Node) : (n.members keep).map unlocated = n.unlocated.members false := by
  rw [members, members, List.map_map]
  rfl

theorem unlocated_children (n : Node) : (n.children keep).map unlocated = n.unlocated.children false := by
  rw [children, children, List.map_append, unlocated_elements, unlocated_members]

theorem unlocated_element? (n : Node) (i : Nat) :
    (n.element? keep i).map unlocated = n.unlocated.element? false i := by
  rw [element?, element?, Option.map_map]
  rfl

theorem unlocated_member? (n : Node) (name : String) :
    (n.member? keep name).map unlocated = n.unlocated.member? false name := by
  rw [member?, member?, Option.map_map]
  rfl

theorem unlocated_at? (n : Node) (i : Int) : (n.at? keep i).map unlocated = n.unlocated.at? false i := by
  rw [at?, at?, Option.map_bind]
  congr 1
  funext j
  exact n.unlocated_element? j

theorem unlocated_named? (n : Node) (name : String) :
    (n.named? keep name).map unlocated = n.unlocated.named? false name := by
  unfold named?
  rw [unlocated_value]
  split
  · exact n.unlocated_member? name
  · split
    · exact n.unlocated_at? _
    · split <;> rfl
  · split <;> rfl
  · rfl

theorem unlocated_keyed? (n : Node) (key : Value) :
    (n.keyed? keep key).map unlocated = n.unlocated.keyed? false key := by
  unfold keyed?
  rw [unlocated_value]
  split
  · rw [Option.map_bind]
    congr 1
    funext i
    exact n.unlocated_at? i
  · rw [Option.map_bind]
    congr 1
    funext name
    exact n.unlocated_member? name
  · rfl

theorem unlocated_sliced (n : Node) (s : Slice) : (n.sliced keep s).map unlocated = n.unlocated.sliced false s := by
  rw [sliced, sliced, List.map_filterMap]
  congr 1
  funext i
  exact n.unlocated_element? i

theorem unlocated_candidates (n : Node) : (n.candidates keep).map unlocated = n.unlocated.candidates false := by
  unfold candidates
  rw [unlocated_value]
  split
  · exact n.unlocated_elements
  · rfl
  · rfl

mutual

theorem unlocated_containersAt (l : Location) (computed : Bool) : ∀ v : Value,
    (containersAt keep l computed v).map unlocated = containersAt false .root computed v
  | .array vs => by
    rw [containersAt, containersAt, List.map_cons, unlocated_elementContainers l computed 0 vs]
    rfl
  | .object ms => by
    rw [containersAt, containersAt, List.map_cons, unlocated_memberContainers l computed ms]
    rfl
  | .null | .bool _ | .number _ | .string _ => by simp [containersAt]

theorem unlocated_elementContainers (l : Location) (computed : Bool) : ∀ (i : Nat) (vs : List Value),
    (elementContainers keep l computed i vs).map unlocated = elementContainers false .root computed i vs
  | _, [] => by simp [elementContainers]
  | i, v :: vs => by
    rw [elementContainers, elementContainers, List.map_append, unlocated_containersAt _ computed v]
    rw [unlocated_elementContainers l computed (i + 1) vs]
    rfl

theorem unlocated_memberContainers (l : Location) (computed : Bool) : ∀ ms : List (String × Value),
    (memberContainers keep l computed ms).map unlocated = memberContainers false .root computed ms
  | [] => by simp [memberContainers]
  | (name, v) :: ms => by
    rw [memberContainers, memberContainers, List.map_append, unlocated_containersAt _ computed v]
    rw [unlocated_memberContainers l computed ms]
    rfl

end

theorem unlocated_containers (n : Node) : (n.containers keep).map unlocated = n.unlocated.containers false :=
  unlocated_containersAt n.location n.computed n.value

end Node

theorem BinaryOp.unlocated_applyNode (current v w : Node) (op : BinaryOp) :
    (op.applyNode current v w).unlocated = op.applyNode current.unlocated v.unlocated w.unlocated := by
  unfold applyNode
  rw [Node.unlocated_value]
  cases op.keepsLeft? v.value with
  | none => rfl
  | some left => cases left <;> rfl

namespace Matches

def unlocated (m : Matches) : Matches := ⟨m.nodes.map Node.unlocated, m.kind⟩

theorem unlocated_toNode (l : Location) (m : Matches) :
    (m.toNode l).unlocated = m.unlocated.toNode .root := by
  obtain ⟨ns, kind⟩ := m
  cases kind with
  | many =>
    show Node.mk .root (.array (ns.map (·.value))) true =
      ⟨.root, .array ((ns.map Node.unlocated).map (·.value)), true⟩
    rw [Node.unlocated_values]
  | single =>
    rcases ns with _ | ⟨n, _ | ⟨k, ns⟩⟩
    · rfl
    · rfl
    · simp [toNode, unlocated, Node.unlocated]

theorem unlocated_holds (m : Matches) : m.unlocated.holds = m.holds := by
  obtain ⟨ns, kind⟩ := m
  rcases ns with _ | ⟨n, _ | ⟨k, ns⟩⟩ <;> rfl

end Matches

namespace Operand

def unlocated : Operand → Operand
  | node n => node n.unlocated
  | found m => found m.unlocated

theorem unlocated_toNode (l : Location) (o : Operand) : (o.toNode l).unlocated = o.unlocated.toNode .root := by
  cases o with
  | node n => rfl
  | found m => exact m.unlocated_toNode l

theorem unlocated_toMatches (o : Operand) : o.toMatches.unlocated = o.unlocated.toMatches := by
  cases o <;> rfl

end Operand

namespace Session

/-- What is known and what has been done is the same, only that the matches that are known have no locations. -/
def unlocated (σ : Session) : Session := ⟨σ.roots.map fun r => (r.1, r.2.unlocated), σ.events⟩

theorem unlocated_root? (σ : Session) (i : Nat) : σ.unlocated.root? i = (σ.root? i).map Matches.unlocated := by
  unfold root? unlocated
  induction σ.roots with
  | nil => rfl
  | cons r roots ih =>
    rw [List.map_cons, List.lookup_cons, List.lookup_cons]
    cases i == r.1 with
    | true => rfl
    | false => exact ih

@[simp] theorem unlocated_logged (σ : Session) (e : Event) : (logged σ e).unlocated = logged σ.unlocated e := rfl

end Session

/-- `y` gives what is left of the result of `x`, and leaves the session of `x`, when locations are forgotten. -/
def Mirrors {α β : Type} (g : α → β) (x : Eval α) (y : Eval β) : Prop :=
  ∀ σ, resultIn σ.unlocated y = (resultIn σ x).map g ∧ after σ.unlocated y = (after σ x).unlocated

namespace Mirrors

variable {α β γ δ : Type}

theorem pure (g : α → β) (a : α) : Mirrors g (Pure.pure a) (Pure.pure (g a)) := fun _ => ⟨rfl, rfl⟩

theorem throw (g : α → β) (e : EvalError) : Mirrors g (throw e) (throw e) := fun _ => ⟨rfl, rfl⟩

theorem bind {g : α → β} {h : γ → δ} {x : Eval α} {y : Eval β} {f : α → Eval γ} {f' : β → Eval δ}
    (hx : Mirrors g x y) (hf : ∀ a, Mirrors h (f a) (f' (g a))) : Mirrors h (x >>= f) (y >>= f') := by
  intro σ
  obtain ⟨hr, ha⟩ := hx σ
  cases hok : resultIn σ x with
  | ok a =>
    rw [hok] at hr
    rw [resultIn_bind_ok hr, resultIn_bind_ok hok, after_bind_ok hr, after_bind_ok hok, ha]
    exact hf a (after σ x)
  | error e =>
    rw [hok] at hr
    rw [resultIn_bind_error hr, resultIn_bind_error hok, after_bind_error hr, after_bind_error hok, ha]
    exact ⟨rfl, rfl⟩

theorem call (f : Function) (arguments : List Value) :
    Mirrors id (Eval.call f arguments) (Eval.call f arguments) := by
  intro σ
  rw [resultIn_call, resultIn_call, after_call, after_call]
  constructor
  · cases f.body arguments <;> rfl
  · rfl

theorem mapM {g : α → β} {h : γ → δ} {f : α → Eval γ} {f' : β → Eval δ} (hf : ∀ a, Mirrors h (f a) (f' (g a)))
    (as : List α) : Mirrors (List.map h) (as.mapM f) ((as.map g).mapM f') := by
  induction as with
  | nil => exact pure _ []
  | cons a as ih =>
    rw [List.mapM_cons, List.map_cons, List.mapM_cons]
    refine bind (hf a) ?_
    intro b
    refine bind ih ?_
    intro bs
    exact pure _ (b :: bs)

variable {go go' : Node → Eval Matches}

theorem collect (h : ∀ n, Mirrors Matches.unlocated (go n) (go' n.unlocated)) (ns : List Node) :
    Mirrors Matches.unlocated (Eval.collect go ns) (Eval.collect go' (ns.map Node.unlocated)) := by
  refine bind (mapM h ns) ?_
  intro ms
  have hnodes : (ms.map Matches.unlocated).flatMap (·.nodes) = (ms.flatMap (·.nodes)).map Node.unlocated := by
    rw [List.flatMap_map, List.map_flatMap]
    rfl
  rw [hnodes]
  exact pure _ _

theorem goOn (h : ∀ n, Mirrors Matches.unlocated (go n) (go' n.unlocated)) (kind : Kind) (n : Option Node) :
    Mirrors Matches.unlocated (Eval.goOn go kind n) (Eval.goOn go' kind (n.map Node.unlocated)) := by
  cases n with
  | none => exact pure _ _
  | some n => exact h n

theorem result (stack : List Operand) :
    Mirrors Matches.unlocated (Operand.result stack) (Operand.result (stack.map Operand.unlocated)) := by
  cases stack with
  | nil => exact throw _ _
  | cons top stack =>
    rw [List.map_cons, Operand.result, Operand.result, ← top.unlocated_toMatches]
    exact pure _ _

theorem once {x y : Eval Matches} (h : Mirrors Matches.unlocated x y) (i : Nat) :
    Mirrors Matches.unlocated (once i x) (once i y) := by
  intro σ
  obtain ⟨hr, ha⟩ := h (logged σ (.enter i))
  rw [Session.unlocated_logged] at hr ha
  cases hk : σ.root? i with
  | some found =>
    have hk' : σ.unlocated.root? i = some found.unlocated := by
      rw [Session.unlocated_root?, hk]
      rfl
    rw [(once_known hk).1, (once_known hk).2, (once_known hk').1, (once_known hk').2]
    exact ⟨rfl, rfl⟩
  | none =>
    have hk' : σ.unlocated.root? i = none := by
      rw [Session.unlocated_root?, hk]
      rfl
    cases hx : resultIn (logged σ (.enter i)) x with
    | error e =>
      rw [hx] at hr
      obtain ⟨hrx, hax⟩ := once_error hk (resultIn_anew.trans hx)
      obtain ⟨hry, hay⟩ := once_error hk' (resultIn_anew.trans hr)
      rw [hrx, hry, hax, hay, after_anew_error hx, after_anew_error hr]
      exact ⟨rfl, ha⟩
    | ok found =>
      rw [hx] at hr
      obtain ⟨hrx, hax⟩ := once_ok hk (resultIn_anew.trans hx)
      obtain ⟨hry, hay⟩ := once_ok hk' (resultIn_anew.trans hr)
      rw [hrx, hry, hax, hay, after_anew_ok hx, after_anew_ok hr, ha]
      exact ⟨rfl, rfl⟩

end Mirrors

section Evaluator

variable (doc : Value) (keep : Bool)

mutual

theorem follow_mirrors : ∀ (x : Selector) {go go' : Node → Eval Matches} (kind : Kind) (n : Node),
    (∀ n, Mirrors Matches.unlocated (go n) (go' n.unlocated)) →
    Mirrors Matches.unlocated (follow .once ⟨doc, keep⟩ x go kind n) (follow .once ⟨doc, false⟩ x go' kind n.unlocated)
  | .root i, _, _, _, n, hg => by
    rw [follow, follow]
    exact (hg (.root doc)).once i
  | .current, _, _, _, n, hg => by
    rw [follow, follow]
    exact hg n
  | .member name, _, _, kind, n, hg => by
    rw [follow, follow, ← @Node.unlocated_named? keep n]
    exact Mirrors.goOn hg kind _
  | .index i, _, _, kind, n, hg => by
    rw [follow, follow, ← @Node.unlocated_at? keep n]
    exact Mirrors.goOn hg kind _
  | .wildcard, _, _, _, n, hg => by
    rw [follow, follow, ← @Node.unlocated_children keep n]
    exact Mirrors.collect hg _
  | .descend, _, _, _, n, hg => by
    rw [follow, follow, ← @Node.unlocated_containers keep n]
    exact Mirrors.collect hg _
  | .slice range, _, _, _, n, hg => by
    rw [follow, follow, ← @Node.unlocated_sliced keep n]
    exact Mirrors.collect hg _
  | .union branches, _, _, _, n, hg => by
    rw [follow, follow]
    refine Mirrors.bind (selectBranches_mirrors branches n hg) ?_
    intro ns
    exact Mirrors.pure Matches.unlocated ⟨ns, .many⟩
  | .filter test, _, _, _, n, hg => by
    rw [follow, follow, ← @Node.unlocated_candidates keep n]
    refine Mirrors.collect ?_ _
    intro k
    refine Mirrors.bind (run_mirrors test k []) ?_
    intro stack
    refine Mirrors.bind (Mirrors.result stack) ?_
    intro found
    rw [found.unlocated_holds]
    cases found.holds with
    | true => exact hg k
    | false => exact Mirrors.pure Matches.unlocated ⟨[], .single⟩
  | .computed key, _, _, kind, n, hg => by
    rw [follow, follow]
    refine Mirrors.bind (run_mirrors key n []) ?_
    intro stack
    refine Mirrors.bind (Mirrors.result stack) ?_
    intro found
    obtain ⟨ns, k⟩ := found
    rcases ns with _ | ⟨key, _ | ⟨other, ns⟩⟩
    · exact Mirrors.pure Matches.unlocated ⟨[], kind⟩
    · show Mirrors _ (Eval.goOn _ kind (n.keyed? keep key.value))
        (Eval.goOn _ kind (n.unlocated.keyed? false key.value))
      rw [← @Node.unlocated_keyed? keep n]
      exact Mirrors.goOn hg kind _
    · exact Mirrors.pure Matches.unlocated ⟨[], kind⟩
  | .call f arguments, _, _, _, n, hg => by
    rw [follow, follow]
    refine Mirrors.bind (runArguments_mirrors arguments n) ?_
    intro values
    refine Mirrors.bind (Mirrors.call f values) ?_
    intro v
    exact hg (n.compute v)

theorem select_mirrors : ∀ (path : List Selector) (n : Node),
    Mirrors Matches.unlocated (select .once ⟨doc, keep⟩ path n) (select .once ⟨doc, false⟩ path n.unlocated)
  | [], n => by
    rw [select, select]
    exact Mirrors.pure Matches.unlocated ⟨[n], .single⟩
  | x :: path, n => by
    rw [select, select]
    exact follow_mirrors x _ n fun k => select_mirrors path k

theorem selectBranches_mirrors : ∀ (branches : List (List Instr)) {go go' : Node → Eval Matches} (n : Node),
    (∀ n, Mirrors Matches.unlocated (go n) (go' n.unlocated)) →
    Mirrors (List.map Node.unlocated) (selectBranches .once ⟨doc, keep⟩ branches n go)
      (selectBranches .once ⟨doc, false⟩ branches n.unlocated go')
  | [], _, _, _, _ => by
    rw [selectBranches, selectBranches]
    exact Mirrors.pure _ []
  | branch :: branches, _, _, n, hg => by
    rw [selectBranches, selectBranches]
    refine Mirrors.bind (run_mirrors branch n []) ?_
    intro stack
    refine Mirrors.bind (Mirrors.result stack) ?_
    intro starts
    refine Mirrors.bind (Mirrors.collect hg _) ?_
    intro found
    refine Mirrors.bind (selectBranches_mirrors branches n hg) ?_
    intro others
    have hnodes : found.unlocated.nodes ++ others.map Node.unlocated = (found.nodes ++ others).map Node.unlocated :=
      List.map_append.symm
    rw [hnodes]
    exact Mirrors.pure _ _

theorem runArguments_mirrors : ∀ (arguments : List (List Instr)) (n : Node),
    Mirrors id (runArguments .once ⟨doc, keep⟩ arguments n) (runArguments .once ⟨doc, false⟩ arguments n.unlocated)
  | [], _ => by
    rw [runArguments, runArguments]
    exact Mirrors.pure _ []
  | argument :: arguments, n => by
    rw [runArguments, runArguments]
    refine Mirrors.bind (run_mirrors argument n []) ?_
    intro stack
    refine Mirrors.bind (Mirrors.result stack) ?_
    intro found
    refine Mirrors.bind (runArguments_mirrors arguments n) ?_
    intro values
    have hvalue := congrArg Node.value (found.unlocated_toNode n.location)
    rw [Node.unlocated_value] at hvalue
    rw [hvalue]
    exact Mirrors.pure id _

theorem execute_mirrors : ∀ (i : Instr) (n : Node) (stack : List Operand),
    Mirrors (List.map Operand.unlocated) (execute .once ⟨doc, keep⟩ i n stack)
      (execute .once ⟨doc, false⟩ i n.unlocated (stack.map Operand.unlocated))
  | .root, n, stack => by
    rw [execute, execute]
    exact Mirrors.pure (List.map Operand.unlocated) (.node (.root doc) :: stack)
  | .current, n, stack => by
    rw [execute, execute]
    exact Mirrors.pure (List.map Operand.unlocated) (.node n :: stack)
  | .literal v, n, stack => by
    rw [execute, execute]
    exact Mirrors.pure (List.map Operand.unlocated) (.node ⟨n.location, v, false⟩ :: stack)
  | .path path, n, [] | .unary op, n, [] | .binary op, n, [] | .binary op, n, [right] => by
    simp only [List.map_cons, List.map_nil, execute]
    exact Mirrors.throw _ _
  | .path path, n, top :: stack => by
    rw [List.map_cons, execute, execute]
    have htop : top.unlocated.toNode n.unlocated.location = (top.toNode n.location).unlocated :=
      (top.unlocated_toNode n.location).symm
    rw [htop]
    refine Mirrors.bind (select_mirrors path _) ?_
    intro found
    exact Mirrors.pure (List.map Operand.unlocated) (.found found :: stack)
  | .unary op, n, top :: stack => by
    rw [List.map_cons, execute, execute]
    have htop := congrArg Node.value (top.unlocated_toNode n.location)
    rw [Node.unlocated_value] at htop
    rw [htop]
    exact Mirrors.pure (List.map Operand.unlocated)
      (.node (n.compute (op.apply (top.unlocated.toNode .root).value)) :: stack)
  | .binary op, n, right :: left :: stack => by
    rw [List.map_cons, List.map_cons, execute, execute]
    have hnode : op.applyNode n.unlocated (left.unlocated.toNode n.unlocated.location)
        (right.unlocated.toNode n.unlocated.location) =
          (op.applyNode n (left.toNode n.location) (right.toNode n.location)).unlocated := by
      rw [op.unlocated_applyNode, left.unlocated_toNode, right.unlocated_toNode]
      rfl
    rw [hnode]
    exact Mirrors.pure (List.map Operand.unlocated)
      (.node (op.applyNode n (left.toNode n.location) (right.toNode n.location)) :: stack)

theorem run_mirrors : ∀ (p : List Instr) (n : Node) (stack : List Operand),
    Mirrors (List.map Operand.unlocated) (run .once ⟨doc, keep⟩ p n stack)
      (run .once ⟨doc, false⟩ p n.unlocated (stack.map Operand.unlocated))
  | [], n, stack => by
    rw [run, run]
    exact Mirrors.pure _ stack
  | i :: is, n, stack => by
    rw [run, run]
    refine Mirrors.bind (execute_mirrors i n stack) ?_
    intro stack
    exact run_mirrors is n stack

end

/-- A program decides and finds the same without locations, from the same node and in the same session. -/
theorem evaluate_mirrors (p : Program) (n : Node) :
    Mirrors Matches.unlocated (evaluate .once ⟨doc, keep⟩ p n) (evaluate .once ⟨doc, false⟩ p n.unlocated) :=
  (run_mirrors doc keep p n []).bind Mirrors.result

end Evaluator

namespace Flags

/-- A flag that is added asks for nothing else. -/
theorem contains_union {g h : Flags} (hg : h.bits &&& g.bits = 0) (f : Flags) :
    (f.union h).contains g = f.contains g := by
  have hbits : (f.bits ||| h.bits) &&& g.bits = f.bits &&& g.bits := by
    apply UInt8.toBitVec_inj.1
    rw [UInt8.toBitVec_and, UInt8.toBitVec_or, BitVec.and_or_distrib_right, ← UInt8.toBitVec_and,
      ← UInt8.toBitVec_and, hg]
    exact BitVec.or_zero
  show ((f.bits ||| h.bits) &&& g.bits == g.bits) = (f.bits &&& g.bits == g.bits)
  rw [hbits]

theorem arrange_union_located (f : Flags) (ns : List Node) : (f.union .located).arrange ns = f.arrange ns := by
  have hdistinct : (f.union .located).isDistinct = f.isDistinct := contains_union rfl f
  have hdescending : (f.union .located).isDescending = f.isDescending := contains_union rfl f
  have hsorted : (f.union .located).isSorted = f.isSorted := by
    rw [isSorted, isSorted, contains_union rfl, contains_union rfl]
  rw [arrange, arrange, hdistinct, hdescending, hsorted]

theorem eq_plain {f : Flags} (h : f.tracksLocations = false) : f = plain := by
  obtain ⟨bits⟩ := f
  have hbits : bits = 0 := by simpa [tracksLocations] using h
  rw [hbits]
  rfl

end Flags

namespace Answer

theorem map_map {α β γ : Type} (g : β → γ) (f : α → β) (a : Answer α) : (a.map f).map g = a.map fun x => g (f x) := by
  obtain ⟨result, events⟩ := a
  cases result <;> rfl

end Answer

namespace Query

theorem search_unlocated (q : Query) (doc : Value) :
    q.search false doc = (q.search true doc).map Matches.unlocated := by
  obtain ⟨hr, ha⟩ := evaluate_mirrors doc true q.program (.root doc) .empty
  have hevents := congrArg (fun σ => σ.events.reverse) ha
  show (⟨_, _⟩ : Answer Matches) = ⟨_, _⟩
  rw [Answer.mk.injEq]
  exact ⟨hr, hevents⟩

/-- Whether it keeps locations or not, an evaluation tells the values of the matches, or their paths. -/
theorem evaluate_eq_map (q : Query) (f : Flags) (doc : Value) :
    q.evaluate f doc = (q.matchesOf f doc).map fun ps =>
      .array (ps.map fun p => if f.wantsPaths then .string p.1.text else p.2) := by
  have harrange : ∀ m : Matches, (f.union .located).arrange m.nodes = f.arrange m.nodes :=
    fun m => f.arrange_union_located m.nodes
  simp only [evaluate, matchesOf, nodes, Answer.map_map, f.tracksLocations_union_located, harrange]
  cases hf : f.tracksLocations with
  | true =>
    congr 1
    funext m
    simp
  | false =>
    have hplain := Flags.eq_plain hf
    subst hplain
    rw [search_unlocated, Answer.map_map]
    congr 1
    funext m
    show Value.array ((m.nodes.map Node.unlocated).map (·.value)) =
      .array ((m.nodes.map fun n => (n.location, n.value)).map (·.2))
    rw [Node.unlocated_values, List.map_map]
    rfl

/-- What an evaluation returns is told by the matches with their locations, which the same calls in the same order lead
to; where these fail the evaluation fails with the same error. Without any flag no location is kept, but every program
finds the same values in the same order, accepts the same nodes as a filter, makes the same calls with the same
arguments and fails with the same error as where locations are kept. -/
theorem evaluate_eq_matchesOf (q : Query) (f : Flags) (doc : Value) :
    (q.evaluate f doc = (q.matchesOf f doc).map fun ps =>
      .array (ps.map fun p => if f.wantsPaths then .string p.1.text else p.2)) ∧
    (q.evaluate f doc).calls = (q.matchesOf f doc).calls ∧
    q.search false doc = (q.search true doc).map Matches.unlocated ∧
    ∀ (p : Program) (n : Node) (σ : Session),
      resultIn σ.unlocated (PathQuery.evaluate .once ⟨doc, false⟩ p n.unlocated) =
        (resultIn σ (PathQuery.evaluate .once ⟨doc, true⟩ p n)).map Matches.unlocated ∧
      (resultIn σ.unlocated (PathQuery.evaluate .once ⟨doc, false⟩ p n.unlocated)).map Matches.holds =
        (resultIn σ (PathQuery.evaluate .once ⟨doc, true⟩ p n)).map Matches.holds ∧
      (after σ.unlocated (PathQuery.evaluate .once ⟨doc, false⟩ p n.unlocated)).events =
        (after σ (PathQuery.evaluate .once ⟨doc, true⟩ p n)).events := by
  have hanswer := evaluate_eq_map q f doc
  refine ⟨hanswer, ?_, search_unlocated q doc, ?_⟩
  · rw [hanswer]
    rfl
  · intro p n σ
    obtain ⟨hr, ha⟩ := evaluate_mirrors doc true p n σ
    rw [hr, ha]
    refine ⟨rfl, ?_, rfl⟩
    cases resultIn σ (PathQuery.evaluate .once ⟨doc, true⟩ p n) with
    | error e => rfl
    | ok m => exact congrArg Except.ok m.unlocated_holds

end Query

end PathQuery
