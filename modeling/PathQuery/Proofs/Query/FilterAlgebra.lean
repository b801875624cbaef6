import PathQuery.Proofs.Query.BracketLists
import PathQuery.Proofs.Query.Failure
import PathQuery.Proofs.Query.Kinds
import PathQuery.Proofs.Query.Tests
import PathQuery.Standard

namespace PathQuery

open Eval Strategy
open Syntax (Branch bracketSelectors run_append execute_root execute_current execute_literal execute_path execute_unary
  execute_binary)

/-- One of its operands is what `&&` leaves, and it is true if both are. -/
theorem BinaryOp.isFalsy_and (n l r : Node) :
    (!(BinaryOp.and.applyNode n l r).value.isFalsy) = (!l.value.isFalsy && !r.value.isFalsy) := by
  cases hl : l.value.isFalsy <;> simp [applyNode, keepsLeft?, hl]

theorem BinaryOp.isFalsy_or (n l r : Node) :
    (!(BinaryOp.or.applyNode n l r).value.isFalsy) = (!l.value.isFalsy || !r.value.isFalsy) := by
  cases hl : l.value.isFalsy <;> simp [applyNode, keepsLeft?, hl]

namespace Program

/-- The last instruction is a path that may lead to many nodes. -/
def EndsInMany (p : Program) : Prop := ∃ steps, p.getLast? = some (.path steps) ∧ ∃ x ∈ steps, x.Multiplies

/-- What is below the operands that a program takes stays there. -/
theorem height?_add {p : Program} {m n : Nat} (h : p.height? m = some n) (k : Nat) :
    p.height? (m + k) = some (n + k) := by
  induction p generalizing m with
  | nil =>
    cases h
    rfl
  | cons i p ih =>
    rw [height?] at h ⊢
    split at h
    · next ho =>
      have hrest := ih h
      rw [if_pos (by omega), ← hrest]
      congr 1
      omega
    · cases h

theorem height?_not {p : Program} (hp : p.height? 0 = some 1) : height? 0 (p ++ [.unary .not]) = some 1 := by
  rw [height?_append, hp]
  rfl

theorem height?_binary {p q : Program} (hp : p.height? 0 = some 1) (hq : q.height? 0 = some 1) (op : BinaryOp) :
    height? 0 (p ++ q ++ [.binary op]) = some 1 := by
  rw [height?_append, height?_append, hp]
  show ((q.height? (0 + 1)).bind fun m => height? m [.binary op]) = some 1
  rw [height?_add hq 1]
  rfl

/-- At a node, a program of one value puts this operand on the stack. -/
def Puts (s : Setting) (p : Program) (n : Node) (o : Operand) : Prop := Returns (run .anew s p n []) [o]

/-- What a filter with this test decides about a node. -/
def Decides (s : Setting) (p : Program) (n : Node) (b : Bool) : Prop := ∃ o, p.Puts s n o ∧ o.toMatches.holds = b

end Program

namespace Syntax.Tree

/-- The steps of a tree that is nothing but a path or a call, parentheses aside. -/
def bareSteps : Tree env Atom → List Selector
  | operand (.root steps) => steps
  | operand (.current steps) => steps
  | operand (.literal _) => []
  | group t => t.bareSteps
  | prefixed _ _ => []
  | likes _ _ => []
  | binary _ _ _ => []

/-- Of the expressions by syntax, only bare paths and calls end with a path to many nodes. -/
theorem endsInMany_post {t : Tree env Atom} : t.post.EndsInMany ↔ ∃ x ∈ t.bareSteps, x.Multiplies := by
  induction t with
  | operand a => cases a <;> simp [post, bareSteps, Atom.program, Program.EndsInMany]
  | group t ih => exact ih
  | prefixed op t _ => simp [post, bareSteps, Program.EndsInMany, PrefixOp.operator, Operator.instr]
  | likes r t _ => simp [post, bareSteps, Program.EndsInMany, PatternText.operator, Operator.instr]
  | binary op l r _ _ => simp [post, bareSteps, Program.EndsInMany]

end Syntax.Tree

section operands

variable {t : Strategy} {s : Setting} {n : Node}

/-- An instruction leaves one operand in the place of those that it takes, whatever is below them. -/
theorem exists_execute (i : Instr) {stack : List Operand} (h : i.operands ≤ stack.length) : ∃ x : Eval Operand,
    ∀ more, execute t s i n (stack ++ more) = x >>= fun o => pure (o :: (stack.drop i.operands ++ more)) := by
  cases i with
  | root => exact ⟨pure (.node (.root s.doc)), fun more => by simp [execute_root, Instr.operands]⟩
  | current => exact ⟨pure (.node n), fun more => by simp [execute_current, Instr.operands]⟩
  | literal v => exact ⟨pure (.node ⟨n.location, v, false⟩), fun more => by simp [execute_literal, Instr.operands]⟩
  | path steps =>
    rcases stack with _ | ⟨top, stack⟩
    · cases h
    · refine ⟨do return .found (← select t s steps (top.toNode n.location)), fun more => ?_⟩
      simp [execute_path, Instr.operands]
  | unary op =>
    rcases stack with _ | ⟨top, stack⟩
    · cases h
    · refine ⟨pure (.node (n.compute (op.apply (top.toNode n.location).value))), fun more => ?_⟩
      simp [execute_unary, Instr.operands]
  | binary op =>
    rcases stack with _ | ⟨right, _ | ⟨left, stack⟩⟩
    · cases h
    · cases h with
      | step h => cases h
    · refine ⟨pure (.node (op.applyNode n (left.toNode n.location) (right.toNode n.location))), fun more => ?_⟩
      simp [execute_binary, Instr.operands]

/-- A program that leaves one operand does so whatever is below those that it takes. -/
theorem exists_run {p : Program} {stack : List Operand} (h : p.height? stack.length = some 1) : ∃ x : Eval Operand,
    ∀ more, run t s p n (stack ++ more) = x >>= fun o => pure (o :: more) := by
  induction p generalizing stack with
  | nil =>
    obtain ⟨o, rfl⟩ := List.length_eq_one_iff.1 (Option.some.inj h)
    exact ⟨pure o, fun more => by simp [run]⟩
  | cons i p ih =>
    rw [Program.height?] at h
    split at h
    · next ho =>
      obtain ⟨x, hx⟩ := exists_execute (t := t) (s := s) (n := n) i ho
      have hrest : ∀ o : Operand, ∃ y : Eval Operand, ∀ more,
          run t s p n (o :: (stack.drop i.operands ++ more)) = y >>= fun o => pure (o :: more) := by
        intro o
        have hrest : Program.height? (o :: stack.drop i.operands).length p = some 1 := by simpa using h
        exact ih hrest
      choose y hy using hrest
      refine ⟨x >>= y, fun more => ?_⟩
      simp only [run, hx, bind_assoc, pure_bind, hy]
    · cases h

end operands

namespace Program

variable {s : Setting} {n : Node} {p q : Program} {o : Operand} {b c : Bool} {f : Nat → Nat}

/-- The numbers of the occurrences of the root do not matter. -/
theorem puts_renumber : Puts s (renumberProgram f p) n o ↔ p.Puts s n o := by
  have hsame : Same (run .anew s (renumberProgram f p) n []) (run .anew s p n []) := by
    rw [run_renumber]
    exact ((direct_anew.renumber f).simulation direct_anew s).run_related p n [] ⟨fun _ hc => hc, fun _ _ => trivial⟩
  exact hsame.returns_iff

/-- Nothing else comes of a program of one value. -/
theorem puts_of_returns (hp : p.height? 0 = some 1) {stack : List Operand} (h : Returns (run .anew s p n []) stack) :
    ∃ o, stack = [o] ∧ p.Puts s n o := by
  obtain ⟨o, rfl⟩ := List.length_eq_one_iff.1 (run_length List.length_nil hp (h .empty))
  exact ⟨o, rfl, h⟩

/-- On top of a stack a program puts the same operand. -/
theorem Puts.on (h : p.Puts s n o) (hp : p.height? 0 = some 1) (stack : List Operand) :
    Returns (run .anew s p n stack) (o :: stack) := by
  obtain ⟨x, hx⟩ := @exists_run .anew s n p [] hp
  intro σ
  have hempty := h σ
  rw [← List.nil_append stack, hx]
  rw [← List.nil_append [], hx] at hempty
  cases hr : resultIn σ x with
  | error e =>
    rw [resultIn_bind_error hr] at hempty
    cases hempty
  | ok o' =>
    rw [resultIn_bind_ok hr] at hempty ⊢
    cases hempty
    rfl

/-- An instruction behind a program that puts its operands. -/
theorem puts_append {i : Instr} {stack : List Operand} (h : Returns (run .anew s p n []) stack)
    (hi : execute .anew s i n stack = pure [o]) : Puts s (p ++ [i]) n o := by
  intro σ
  rw [run_append, resultIn_bind_ok (h σ)]
  simp [run, hi]

theorem Puts.not (h : p.Puts s n o) :
    Puts s (p ++ [.unary .not]) n (.node (n.compute (.bool (o.toNode n.location).value.isFalsy))) :=
  puts_append h (execute_unary .anew s n .not o [])

theorem Puts.binary {o' : Operand} (h : p.Puts s n o) (h' : q.Puts s n o') (hq : q.height? 0 = some 1) (op : BinaryOp) :
    Puts s (p ++ q ++ [.binary op]) n (.node (op.applyNode n (o.toNode n.location) (o'.toNode n.location))) := by
  have hboth : Returns (run .anew s (p ++ q) n []) [o', o] := by
    intro σ
    rw [run_append, resultIn_bind_ok (h σ)]
    exact h'.on hq [o] _
  exact puts_append hboth (execute_binary .anew s n op o' o [])

/-- Matches of a path are on top of the stack only behind this path. -/
theorem Puts.selected {m : Matches} (h : p.Puts s n (.found m)) (hp : p.height? 0 = some 1) :
    ∃ steps, p.getLast? = some (.path steps) ∧ m.Has (.ofPath steps) := by
  obtain ⟨q, i, rfl⟩ : ∃ q i, p = q ++ [i] := by
    refine ⟨_, _, (List.dropLast_append_getLast (l := p) ?_).symm⟩
    rintro rfl
    cases hp
  have hlast := h .empty
  rw [run_append] at hlast
  cases hq : resultIn .empty (run .anew s q n []) with
  | error e =>
    rw [resultIn_bind_error hq] at hlast
    cases hlast
  | ok stack =>
    have hoperands : i.operands ≤ stack.length := run_operands hp hq
    rw [resultIn_bind_ok hq] at hlast
    simp only [run, bind_pure] at hlast
    cases i with
    | path steps =>
      rcases stack with _ | ⟨top, stack⟩
      · cases hoperands
      · rw [execute_path] at hlast
        cases hm : resultIn (after .empty (run .anew s q n [])) (select .anew s steps (top.toNode n.location)) with
        | error e =>
          rw [resultIn_bind_error hm] at hlast
          cases hlast
        | ok m' =>
          rw [resultIn_bind_ok hm] at hlast
          cases hlast
          exact ⟨steps, List.getLast?_concat, ofKind_select steps _ _ _ hm⟩
    | root | current | literal v =>
      simp only [execute] at hlast
      cases hlast
    | unary op =>
      rcases stack with _ | ⟨top, stack⟩ <;> simp only [execute] at hlast <;> cases hlast
    | binary op =>
      rcases stack with _ | ⟨right, _ | ⟨left, stack⟩⟩ <;> simp only [execute] at hlast <;> cases hlast

/-- A filter decides by the value of its test, unless this ends with a path to many nodes. -/
theorem Puts.holds (h : p.Puts s n o) (hp : p.height? 0 = some 1) (hm : ¬p.EndsInMany) :
    o.toMatches.holds = !(o.toNode n.location).value.isFalsy := by
  cases o with
  | node k => rfl
  | found m =>
    obtain ⟨steps, hsteps, hkind, hlength⟩ := h.selected hp
    have hsingle : Kind.ofPath steps = .single := by
      cases hk : Kind.ofPath steps with
      | single => rfl
      | many => exact absurd ⟨steps, hsteps, Kind.ofPath_eq_many.1 hk⟩ hm
    obtain ⟨ns, kind⟩ := m
    obtain rfl : kind = .single := hkind.trans hsingle
    match ns, hlength hsingle with
    | [], _ => rfl
    | [k], _ => rfl

theorem EndsInMany.of_renumber (h : EndsInMany (renumberProgram f p)) : p.EndsInMany := by
  obtain ⟨steps, hlast, hmany⟩ := h
  rw [renumberProgram_eq, List.getLast?_map] at hlast
  obtain ⟨i, hi, hrenumbered⟩ := Option.map_eq_some_iff.1 hlast
  cases i with
  | path steps' =>
    rw [Instr.renumber] at hrenumbered
    cases hrenumbered
    rw [← Kind.ofPath_eq_many, Kind.ofPath_renumber] at hmany
    exact ⟨steps', hi, Kind.ofPath_eq_many.1 hmany⟩
  | root | current | literal v | unary op | binary op =>
    rw [Instr.renumber] at hrenumbered
    cases hrenumbered

theorem Decides.unique (h : p.Decides s n b) (h' : p.Decides s n c) : b = c := by
  obtain ⟨o, ho, rfl⟩ := h
  obtain ⟨o', ho', rfl⟩ := h'
  cases (ho .empty).symm.trans (ho' .empty)
  rfl

theorem Decides.not (h : p.Decides s n b) (hp : p.height? 0 = some 1) (hm : ¬p.EndsInMany) :
    Decides s (p ++ [.unary .not]) n !b := by
  obtain ⟨o, ho, rfl⟩ := h
  refine ⟨_, ho.not, ?_⟩
  rw [ho.holds hp hm]
  simp [Operand.toMatches, Matches.holds, Node.compute, Value.isFalsy]

/-- An operator that leaves a value whose truth depends on the truth of its operands alone. -/
theorem Decides.binary (h : p.Decides s n b) (h' : q.Decides s n c) (hp : p.height? 0 = some 1)
    (hq : q.height? 0 = some 1) (hm : ¬p.EndsInMany) (hm' : ¬q.EndsInMany) {op : BinaryOp} {truth : Bool → Bool → Bool}
    (hop : ∀ l r, (!(op.applyNode n l r).value.isFalsy) = truth (!l.value.isFalsy) (!r.value.isFalsy)) :
    Decides s (p ++ q ++ [.binary op]) n (truth b c) := by
  obtain ⟨o, ho, rfl⟩ := h
  obtain ⟨o', ho', rfl⟩ := h'
  refine ⟨_, ho.binary ho' hq op, ?_⟩
  rw [ho.holds hp hm, ho'.holds hq hm']
  exact hop _ _

theorem decides_renumber : Decides s (renumberProgram f p) n b ↔ p.Decides s n b := by
  simp only [Decides, puts_renumber]

end Program

section filters

variable {s : Setting} {n : Node} {test : Program} {ns : List Node}

theorem finds_collect {go : Node → Eval Matches} (hg : ∀ k, Steady (go k)) (ks : List Node) :
    Finds (Eval.collect go ks) ns ↔ Each (fun k ys => Finds (go k) ys) ks ns := by
  have hstarts : Eval.collect single ks = pure ⟨ks, .many⟩ := collect_pure ks
  rw [(Threads.collect .go ks).finds .single hg, hstarts]
  simp only [finds_pure, exists_eq_left]

/-- A filter keeps the candidates that its test decides for, and comes to nothing if it cannot decide about one. -/
theorem finds_filter (hp : test.height? 0 = some 1) : Finds (select .anew s [.filter test] n) ns ↔
    Each (fun k ys => ∃ b, test.Decides s k b ∧ ys = if b then [k] else []) (n.candidates s.keep) ns := by
  have hkeep : ∀ (m : Matches) (k : Node), Steady (if m.holds then select .anew s [] k else pure ⟨[], .single⟩) := by
    intro m k
    split
    · exact select_steady direct_anew [] k
    · exact steady_pure
  have hresult : ∀ (stack : List Operand) (k : Node), Steady (Operand.result stack >>= fun m =>
      if m.holds then select .anew s [] k else pure ⟨[], .single⟩) :=
    fun stack k => (result_steady stack).bind fun m => hkeep m k
  rw [select, follow, finds_collect fun k => (run_steady direct_anew test k).bind fun stack => hresult stack k]
  refine each_congr (fun k _ ys => ?_) ns
  rw [finds_bind (run_steady direct_anew test k) fun stack => hresult stack k]
  have hdecided : ∀ o : Operand, Finds (Operand.result [o] >>= fun m =>
      if m.holds then select .anew s [] k else pure ⟨[], .single⟩) ys ↔ ys = if o.toMatches.holds then [k] else [] := by
    intro o
    rw [Operand.result, pure_bind]
    cases o.toMatches.holds with
    | true =>
      simp only [if_true, select]
      exact finds_pure
    | false => exact finds_pure
  constructor
  · rintro ⟨stack, hstack, hys⟩
    obtain ⟨o, rfl, ho⟩ := Program.puts_of_returns hp hstack
    exact ⟨_, ⟨o, ho, rfl⟩, (hdecided o).1 hys⟩
  · rintro ⟨b, ⟨o, ho, rfl⟩, hys⟩
    exact ⟨[o], ho, (hdecided o).2 hys⟩

/-- What the test decides about each candidate, where the filter comes to something. -/
theorem exists_decides (hp : test.height? 0 = some 1) (h : Finds (select .anew s [.filter test] n) ns) :
    ∃ e : Node → Bool, ∀ k ∈ n.candidates s.keep, test.Decides s k (e k) := by
  classical
  have hdecided := ((finds_filter hp).1 h).exists_of_mem
  refine ⟨fun k => decide (test.Decides s k true), fun k hk => ?_⟩
  obtain ⟨-, b, hb, -⟩ := hdecided k hk
  have htold : decide (test.Decides s k true) = b := by
    cases b with
    | true => exact decide_eq_true hb
    | false => exact decide_eq_false fun htrue => nomatch hb.unique htrue
  show test.Decides s k (decide (test.Decides s k true))
  rwa [htold]

theorem finds_filter_of_decides (hp : test.height? 0 = some 1) {e : Node → Bool}
    (he : ∀ k ∈ n.candidates s.keep, test.Decides s k (e k)) :
    Finds (select .anew s [.filter test] n) ns ↔ ns = (n.candidates s.keep).filter e := by
  have hall : ∀ k ∈ n.candidates s.keep, ∀ ys, (∃ b, test.Decides s k b ∧ ys = if b then [k] else []) ↔
      ys = if e k then [k] else [] := by
    intro k hk ys
    constructor
    · rintro ⟨b, hb, rfl⟩
      rw [hb.unique (he k hk)]
    · intro hys
      exact ⟨e k, he k hk, hys⟩
  rw [finds_filter hp, each_congr hall, each_filter]

end filters

/-- The elements of an array at a location, in their order. -/
def elementsAt (l : Location) (vs : List Value) : List (Location × Value) :=
  vs.zipIdx.map fun (v, i) => (l.child (.index i), v)

theorem Location.before_child_index (l : Location) {i j : Nat} (h : i < j) :
    Before (l.child (.index i)) (l.child (.index j)) := by
  induction l with
  | nil => exact before_cons_cons.2 (.inl (Nat.compare_eq_lt.2 h))
  | cons s l ih => exact before_cons_self.2 ih

theorem elementsAt_increasing (l : Location) (vs : List Value) :
    (elementsAt l vs).Pairwise fun x y => x.1.Before y.1 := by
  rw [elementsAt, List.pairwise_map, List.pairwise_iff_getElem]
  intro i j hi hj hij
  simpa using l.before_child_index hij

/-- The candidates of a filter at an array are its elements. -/
theorem filter_candidates {n : Node} {vs : List Value} (hn : n.value = .array vs) (e : Node → Bool) :
    ((n.candidates true).filter e).map (fun k => (k.location, k.value)) =
      (elementsAt n.location vs).filter fun x => e ⟨x.1, x.2, n.computed⟩ := by
  have hcandidates : n.candidates true = (elementsAt n.location vs).map fun x => ⟨x.1, x.2, n.computed⟩ := by
    simp [Node.candidates, hn, Node.elements, elementsAt, Node.child, Value.elements]
  rw [hcandidates, List.filter_map, List.map_map]
  simp [Function.comp_def]

namespace Query

variable {env : Env} {text : String} {p : Query} {first : Instr} {path : List Selector} {test : Program}
  {f : Nat → Nat} {doc : Value} {n : Node}

/-- Behind a query a test makes a filter. -/
theorem compileWith_filter (hp : compileWith env text = .ok p) : ∃ first path, first.IsAnchor ∧
    p = ⟨[first, .path path]⟩ ∧ ∀ {expression : String} {test : Program} {roots : Nat},
      ReadsOperand env.withLibrary expression test roots → test.height? 0 = some 1 → ∃ f,
        compileWith env (text ++ ("[?" ++ expression ++ "]")) =
          .ok ⟨[first, .path (path ++ [.filter (renumberProgram f test)])]⟩ := by
  obtain ⟨program, hprogram, rfl⟩ := map_eq_ok hp
  obtain ⟨anchor, path, k, position, rfl, -, happend⟩ := Program.ofText_append hprogram
  refine ⟨anchor.instr, path, anchor.isAnchor, rfl, ?_⟩
  intro expression test roots hread hheight
  have htext : "[?" ++ expression ++ "]" = listText ["?" ++ expression] "" := by
    apply String.toList_injective
    simp [listText]
  have hgoes : GoesOn (listText ["?" ++ expression] "").toList := by
    rw [← htext]
    exact ⟨'[', '?' :: (expression.toList ++ [']']), by simp, .inr rfl⟩
  obtain ⟨position', k', hrun⟩ := Machine.run_list
    (⟨"?" ++ expression, _, roots, hread.readsElement hheight⟩ : ElementText env.withLibrary) [] "" position
      anchor path k
  have hsteps : bracketSelectors ((⟨none, [.filter (renumberProgram (0 + ·) test)]⟩ : Branch).renumber (k + ·))
      (@ElementText.branches env.withLibrary (k + roots) []) =
        [.filter (renumberProgram (fun i => k + (0 + i)) test)] := by
    simp [bracketSelectors, Branch.renumber, renumberPath, Selector.renumber, renumberProgram_renumberProgram,
      ElementText.branches]
  refine ⟨fun i => k + (0 + i), ?_⟩
  rw [compileWith, htext, happend _ hgoes]
  exact congrArg (Except.map Query.mk) (hsteps ▸ hrun.trans (Machine.run_onPath_nil position' anchor _ k'))

theorem matchesOf_filter (hf : first.IsAnchor) (hp : compileWith env text = .ok ⟨[first, .path path]⟩) {longer : String}
    (hq : compileWith env longer = .ok ⟨[first, .path (path ++ [.filter (renumberProgram f test)])]⟩)
    (hn : (nodes ⟨[first, .path path]⟩ .located doc).result = .ok [n]) {ms : List (Location × Value)} :
    (matchesOf ⟨[first, .path (path ++ [.filter (renumberProgram f test)])]⟩ .plain doc).result = .ok ms ↔
      ∃ ns, Finds (select .anew ⟨doc, true⟩ [.filter test] n) ns ∧ ms = ns.map fun k => (k.location, k.value) := by
  have hfinds := (nodes_iff_finds hf hp).1 hn
  have hfilter : [Selector.filter (renumberProgram f test)] = renumberPath f [.filter test] := by
    simp [renumberPath, Selector.renumber]
  have hall : ∀ ns, Finds (select .anew ⟨doc, true⟩ (path ++ [.filter (renumberProgram f test)]) (.root doc)) ns ↔
      Finds (select .anew ⟨doc, true⟩ [.filter test] n) ns := by
    intro ns
    rw [finds_select_append direct_anew, hfilter]
    simp only [(select_renumber_same direct_anew f [.filter test] _).finds_iff]
    constructor
    · rintro ⟨ks, hks, h⟩
      obtain rfl := hks.unique hfinds
      rw [each_singleton] at h
      exact h
    · intro h
      refine ⟨[n], hfinds, ?_⟩
      rw [each_singleton]
      exact h
  simp only [matchesOf_iff_finds hf hq, hall]

/-- At an array a filter selects the elements that its test decides for. -/
theorem matchesOf_filter_of_decides (hf : first.IsAnchor) (hp : compileWith env text = .ok ⟨[first, .path path]⟩)
    {longer : String} (hq : compileWith env longer = .ok ⟨[first, .path (path ++ [.filter (renumberProgram f test)])]⟩)
    (hn : (nodes ⟨[first, .path path]⟩ .located doc).result = .ok [n]) {vs : List Value} (hv : n.value = .array vs)
    (ht : test.height? 0 = some 1) {e : Node → Bool} (he : ∀ k ∈ n.candidates true, test.Decides ⟨doc, true⟩ k (e k)) :
    (matchesOf ⟨[first, .path (path ++ [.filter (renumberProgram f test)])]⟩ .plain doc).result =
      .ok ((elementsAt n.location vs).filter fun x => e ⟨x.1, x.2, n.computed⟩) :=
  (matchesOf_filter hf hp hq hn).2 ⟨_, (finds_filter_of_decides ht he).2 rfl, (filter_candidates hv e).symm⟩

/-- Filters on an array form a Boolean algebra: the negation of a test selects the elements that the test does not, and
two tests joined with `&&` or `||` select the elements that both or at least one of them select, each once and in the
order of the array. -/
theorem filters_form_algebra (hp : compileWith env text = .ok p) {e f : String} {testE testF : Program} {i j : Nat}
    (he : ReadsExpression env.withLibrary e testE i)
    (hf : ReadsExpression env.withLibrary f testF j) (hse : ¬testE.EndsInMany) (hsf : ¬testF.EndsInMany) :
    ∃ qE qF qNot qAnd qOr, compileWith env (text ++ ("[?(" ++ e ++ ")]")) = .ok qE ∧
      compileWith env (text ++ ("[?(" ++ f ++ ")]")) = .ok qF ∧
      compileWith env (text ++ ("[?(!(" ++ e ++ "))]")) = .ok qNot ∧
      compileWith env (text ++ ("[?((" ++ e ++ ") && (" ++ f ++ "))]")) = .ok qAnd ∧
      compileWith env (text ++ ("[?((" ++ e ++ ") || (" ++ f ++ "))]")) = .ok qOr ∧
      ∀ (doc : Value) (n : Node) (vs : List Value), (p.nodes .located doc).result = .ok [n] → n.value = .array vs →
        ∀ msE msF, (qE.matchesOf .plain doc).result = .ok msE → (qF.matchesOf .plain doc).result = .ok msF →
          (elementsAt n.location vs).Pairwise (fun x y => x.1.Before y.1) ∧
          ∃ inE inF : Location × Value → Bool, msE = (elementsAt n.location vs).filter inE ∧
            msF = (elementsAt n.location vs).filter inF ∧
            (qNot.matchesOf .plain doc).result = .ok ((elementsAt n.location vs).filter fun x => !inE x) ∧
            (qAnd.matchesOf .plain doc).result = .ok ((elementsAt n.location vs).filter fun x => inE x && inF x) ∧
            (qOr.matchesOf .plain doc).result = .ok ((elementsAt n.location vs).filter fun x => inE x || inF x) := by
  obtain ⟨first, path, hfirst, rfl, hcompile⟩ := compileWith_filter hp
  have hone : ∀ e : String, "[?(" ++ e ++ ")]" = "[?" ++ ("(" ++ e ++ ")") ++ "]" := by
    simp [← String.toList_inj]
  have hnot : "[?(!(" ++ e ++ "))]" = "[?" ++ ("(!" ++ ("(" ++ e ++ ")") ++ ")") ++ "]" := by
    simp [← String.toList_inj]
  have hand : "[?((" ++ e ++ ") && (" ++ f ++ "))]" =
      "[?" ++ ("(" ++ ("(" ++ e ++ ")") ++ " && " ++ ("(" ++ f ++ ")") ++ ")") ++ "]" := by
    simp [← String.toList_inj]
  have hor : "[?((" ++ e ++ ") || (" ++ f ++ "))]" =
      "[?" ++ ("(" ++ ("(" ++ e ++ ")") ++ " || " ++ ("(" ++ f ++ ")") ++ ")") ++ "]" := by
    simp [← String.toList_inj]
  rw [hone e, hone f, hnot, hand, hor]
  have hhf : Program.height? 0 (renumberProgram (i + ·) testF) = some 1 := by rw [Program.height?_renumber, hf.height]
  have hsf' : ¬Program.EndsInMany (renumberProgram (i + ·) testF) := fun h => hsf h.of_renumber
  have hhnot := Program.height?_not he.height
  have hhboth := Program.height?_binary he.height hhf
  obtain ⟨gE, hE⟩ := hcompile he.group he.height
  obtain ⟨gF, hF⟩ := hcompile hf.group hf.height
  obtain ⟨gNot, hNot⟩ := hcompile he.group.not hhnot
  obtain ⟨gAnd, hAnd⟩ := hcompile (he.group.connective .and hf.group) (hhboth .and)
  obtain ⟨gOr, hOr⟩ := hcompile (he.group.connective .or hf.group) (hhboth .or)
  refine ⟨_, _, _, _, _, hE, hF, hNot, hAnd, hOr, ?_⟩
  intro doc n vs hn hv msE msF hmsE hmsF
  obtain ⟨_, hfoundE, -⟩ := (matchesOf_filter hfirst hp hE hn).1 hmsE
  obtain ⟨_, hfoundF, -⟩ := (matchesOf_filter hfirst hp hF hn).1 hmsF
  obtain ⟨inE, hinE⟩ := exists_decides he.height hfoundE
  obtain ⟨inF, hinF⟩ := exists_decides hf.height hfoundF
  have hselectE := matchesOf_filter_of_decides hfirst hp hE hn hv he.height hinE
  have hselectF := matchesOf_filter_of_decides hfirst hp hF hn hv hf.height hinF
  refine ⟨elementsAt_increasing n.location vs, _, _, Except.ok.inj (hmsE.symm.trans hselectE),
    Except.ok.inj (hmsF.symm.trans hselectF), ?_, ?_, ?_⟩
  · exact matchesOf_filter_of_decides hfirst hp hNot hn hv hhnot (e := fun k => !inE k)
      fun k hk => (hinE k hk).not he.height hse
  · exact matchesOf_filter_of_decides hfirst hp hAnd hn hv (hhboth .and) (e := fun k => inE k && inF k)
      fun k hk => (hinE k hk).binary (Program.decides_renumber.2 (hinF k hk)) he.height hhf hse hsf'
        (BinaryOp.isFalsy_and k)
  · exact matchesOf_filter_of_decides hfirst hp hOr hn hv (hhboth .or) (e := fun k => inE k || inF k)
      fun k hk => (hinE k hk).binary (Program.decides_renumber.2 (hinF k hk)) he.height hhf hse hsf'
        (BinaryOp.isFalsy_or k)

/-- A member that is missing is as falsy as one that is. -/
theorem filters_form_algebra_missing :
    let x := Value.object [("a", .bool true)]
    let y := Value.object [("b", .bool false)]
    let z := Value.object [("a", .bool true), ("b", .bool true)]
    let doc := Value.array [x, y, z]
    ∃ qNot qAnd qOr, compileWith (.standard []) "$[?(!(@.a))]" = .ok qNot ∧
      compileWith (.standard []) "$[?((@.a) && (!@.b))]" = .ok qAnd ∧
      compileWith (.standard []) "$[?((@.a) || (!@.b))]" = .ok qOr ∧
      (qNot.matchesOf .plain doc).result = .ok [([.index 1], y)] ∧
      (qAnd.matchesOf .plain doc).result = .ok [([.index 0], x)] ∧
      (qOr.matchesOf .plain doc).result = .ok [([.index 0], x), ([.index 1], y), ([.index 2], z)] := by
  intro x y z doc
  let e : Syntax.Phrase (Env.standard []).withLibrary (Syntax.Primary (Env.standard []).withLibrary) :=
    .operand (.current [.member (.bare ⟨'a', [], Syntax.plain_of_all (by decide)⟩)]) .done
  let f : Syntax.Phrase (Env.standard []).withLibrary (Syntax.Primary (Env.standard []).withLibrary) :=
    .prefixed .not (.operand (.current [.member (.bare ⟨'b', [], Syntax.plain_of_all (by decide)⟩)]) .done)
  have he : ReadsExpression (Env.standard []).withLibrary "@.a" (Syntax.phraseAtoms 0 e).tree.post
      (Syntax.phraseRoots e) :=
    Syntax.readsExpression e (Syntax.isTextOf_texts (by decide))
  have hf : ReadsExpression (Env.standard []).withLibrary "!@.b" (Syntax.phraseAtoms 0 f).tree.post
      (Syntax.phraseRoots f) :=
    Syntax.readsExpression f (Syntax.isTextOf_texts (by decide))
  have hse : ¬(Syntax.phraseAtoms 0 e).tree.post.EndsInMany := by
    rw [Syntax.Tree.endsInMany_post]
    rintro ⟨s, hs, hm⟩
    rcases List.mem_pair.1 hs with rfl | rfl <;> cases hm
  have hsf : ¬(Syntax.phraseAtoms 0 f).tree.post.EndsInMany := by
    rw [Syntax.Tree.endsInMany_post]
    rintro ⟨s, hs, -⟩
    cases hs
  have hp : compileWith (.standard []) "$" = .ok ⟨[.root, .path [.root 0]]⟩ := compileWith_of_runFor (k := 20) rfl
  have hqE : compileWith (.standard []) "$[?(@.a)]" = .ok ⟨[.root, .path [.root 0, .filter
      [.current, .path [.current, .member "a"]]]]⟩ := compileWith_of_runFor (k := 60) rfl
  have hqF : compileWith (.standard []) "$[?(!@.b)]" = .ok ⟨[.root, .path [.root 0, .filter
      [.current, .path [.current, .member "b"], .unary .not]]]⟩ := compileWith_of_runFor (k := 60) rfl
  obtain ⟨qE, qF, qNot, qAnd, qOr, hqE', hqF', hqNot, hqAnd, hqOr, h⟩ := filters_form_algebra hp he hf hse hsf
  obtain rfl := Except.ok.inj (hqE.symm.trans hqE')
  obtain rfl := Except.ok.inj (hqF.symm.trans hqF')
  obtain ⟨-, inE, inF, hinE, hinF, hnot, hand, hor⟩ := h doc (.root doc) _ rfl rfl [([.index 0], x), ([.index 2], z)]
    [([.index 0], x), ([.index 1], y)] rfl rfl
  have helements : elementsAt (Node.root doc).location [x, y, z] =
      [([.index 0], x), ([.index 1], y), ([.index 2], z)] := rfl
  rw [helements] at hinE hinF hnot hand hor
  have hE : inE ([.index 0], x) = true ∧ inE ([.index 1], y) = false ∧ inE ([.index 2], z) = true := by
    cases h0 : inE ([.index 0], x) <;> cases h1 : inE ([.index 1], y) <;> cases h2 : inE ([.index 2], z) <;>
      simp [h0, h1, h2] at hinE ⊢
  have hF : inF ([.index 0], x) = true ∧ inF ([.index 1], y) = true ∧ inF ([.index 2], z) = false := by
    cases h0 : inF ([.index 0], x) <;> cases h1 : inF ([.index 1], y) <;> cases h2 : inF ([.index 2], z) <;>
      simp [h0, h1, h2] at hinF ⊢
  refine ⟨qNot, qAnd, qOr, hqNot, hqAnd, hqOr, ?_, ?_, ?_⟩
  · rw [hnot]
    simp [hE]
  · rw [hand]
    simp [hE, hF]
  · rw [hor]
    simp [hE, hF]

/-- Steps to many nodes make the same difference behind a literal or a group: a filter looks at the node if there is
only one, an operator at the array of them. So an element can be selected neither by a test nor by its negation. -/
theorem filter_and_negation_select_nothing :
    let doc : Value := .array [.array [.bool false]]
    ∃ q qNot r rNot, compileWith (.standard []) "$[?([false][*])]" = .ok q ∧
      compileWith (.standard []) "$[?(!([false][*]))]" = .ok qNot ∧
      compileWith (.standard []) "$[?((@ || null)[*])]" = .ok r ∧
      compileWith (.standard []) "$[?(!((@ || null)[*]))]" = .ok rNot ∧
      (q.matchesOf .plain doc).result = .ok [] ∧ (qNot.matchesOf .plain doc).result = .ok [] ∧
      (r.matchesOf .plain doc).result = .ok [] ∧ (rNot.matchesOf .plain doc).result = .ok [] := by
  intro doc
  refine ⟨⟨[.root, .path [.root 0, .filter [.literal (.array [.bool false]), .path [.wildcard]]]]⟩,
    ⟨[.root, .path [.root 0, .filter [.literal (.array [.bool false]), .path [.wildcard], .unary .not]]]⟩,
    ⟨[.root, .path [.root 0, .filter [.current, .path [.current], .literal .null, .binary .or, .path [.wildcard]]]]⟩,
    ⟨[.root, .path [.root 0, .filter [.current, .path [.current], .literal .null, .binary .or, .path [.wildcard],
      .unary .not]]]⟩, ?_, ?_, ?_, ?_, rfl, rfl, rfl, rfl⟩ <;>
    exact compileWith_of_runFor (k := 60) rfl

end Query

end PathQuery
