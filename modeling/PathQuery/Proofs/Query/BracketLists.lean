import PathQuery.Proofs.Query.Composition
import PathQuery.Proofs.Query.Elements
import PathQuery.Standard

namespace PathQuery

open Eval Strategy
open Syntax (Anchor Branch bracketSelectors)

namespace Syntax.Branch

/-- The node that a branch starts from. -/
def start (s : Setting) (n : Node) (b : Branch) : Node :=
  match b.anchor with
  | some .root => .root s.doc
  | _ => n

/-- From a node a branch with a path behind it finds these nodes, when every path is taken anew. -/
def FindsThen (s : Setting) (path : List Selector) (n : Node) (b : Branch) (ns : List Node) : Prop :=
  ∃ ks, Finds (select .anew s b.path (b.start s n)) ks ∧ Each (fun k ys => Finds (select .anew s path k) ys) ks ns

variable {s : Setting} {n : Node}

theorem run_program (t : Strategy) (b : Branch) :
    run t s b.program n [] = select t s b.path (b.start s n) >>= fun found => pure [.found found] := by
  obtain ⟨anchor, path⟩ := b
  cases anchor with
  | none => simp [program, start, Anchor.instr, run, execute_current, execute_path, Operand.toNode]
  | some anchor =>
    cases anchor with
    | root => simp [program, start, Anchor.instr, run, execute_root, execute_path, Operand.toNode]
    | current => simp [program, start, Anchor.instr, run, execute_current, execute_path, Operand.toNode]

theorem findsThen_renumber (f g : Nat → Nat) (path : List Selector) (b : Branch) (ns : List Node) :
    (b.renumber f).FindsThen s (renumberPath g path) n ns ↔ b.FindsThen s path n ns := by
  have hsame : ∀ (h : Nat → Nat) (steps : List Selector) (k : Node) (ys : List Node),
      Finds (select .anew s (renumberPath h steps) k) ys ↔ Finds (select .anew s steps k) ys :=
    fun h steps k ys => (select_renumber_same direct_anew h steps k).finds_iff
  simp only [FindsThen, renumber, start, hsame]

end Syntax.Branch

section evaluation

variable {s : Setting} {n : Node}

theorem finds_union (bs : List Branch) {ns : List Node} :
    Finds (follow .anew s (.union (bs.map Branch.program)) single .single n) ns ↔
      Each (fun b ys => Finds (select .anew s b.path (b.start s n)) ys) bs ns := by
  rw [follow]
  induction bs generalizing ns with
  | nil =>
    simp [selectBranches, finds_pure, each_nil]
  | cons b bs ih =>
    have hstarts : ∀ m : Matches, Eval.collect single m.nodes = pure ⟨m.nodes, .many⟩ := fun m => collect_pure m.nodes
    have hsteady : Steady (do
        return ⟨← selectBranches .anew s (bs.map Branch.program) n single, .many⟩ : Eval Matches) :=
      (union_threads (s := s) direct_anew (bs.map Branch.program) n).steady .single single_steady
    rw [List.map_cons, union_cons, b.run_program, bind_assoc]
    simp only [pure_bind, Operand.result, Operand.toMatches, hstarts]
    rw [finds_bind (select_steady direct_anew b.path _) fun m => both_steady steady_pure hsteady]
    simp only [finds_both steady_pure hsteady, finds_pure, ih, each_cons]
    have hread := exists_returns (x := select .anew s b.path (b.start s n))
      (P := fun ks => ∃ ys zs, ys = ks ∧ Each (fun b ys => Finds (select .anew s b.path (b.start s n)) ys) bs zs ∧
        ns = ys ++ zs)
    rw [hread]
    simp only [exists_and_left, exists_eq_left]

/-- Whichever selectors a bracket list is read as, with a path behind it, it finds what its branches find with the path
behind them. -/
theorem finds_bracketSelectors (first : Branch) (others : List Branch) (path : List Selector) {ns : List Node} :
    Finds (select .anew s (bracketSelectors first others ++ path) n) ns ↔
      Each (Branch.FindsThen s path n) (first :: others) ns := by
  have hunion : Finds (select .anew s ([.union ((first :: others).map Branch.program)] ++ path) n) ns ↔
      Each (Branch.FindsThen s path n) (first :: others) ns := by
    show Finds (select .anew s (_ :: path) n) ns ↔ _
    rw [finds_select_cons direct_anew]
    simp only [finds_union, ← each_each]
    rfl
  obtain ⟨anchor, steps⟩ := first
  cases anchor with
  | some anchor => exact hunion
  | none =>
    cases others with
    | cons b others => exact hunion
    | nil =>
      show Finds (select .anew s (steps ++ path) n) ns ↔ _
      rw [finds_select_append direct_anew, each_singleton]
      rfl

/-- The numbers of the occurrences in a list do not matter. -/
theorem each_branches {env : Env} (g : Nat → Nat) (path : List Selector) (es : List (ElementText env)) (k : Nat)
    {ns : List Node} : Each (Branch.FindsThen s (renumberPath g path) n) (ElementText.branches k es) ns ↔
      Each (fun e ys => e.branch.FindsThen s path n ys) es ns := by
  induction es generalizing k ns with
  | nil => rw [ElementText.branches, each_nil, each_nil]
  | cons e es ih => simp only [ElementText.branches, each_cons, ih, Branch.findsThen_renumber]

end evaluation

/-- A text is an element of a bracket list. -/
def IsElement (env : Env) (text : String) : Prop := ∃ b roots, ReadsElement env text b roots

theorem isElement_of_isTextOf {env : Env} (e : Syntax.Element env) {text : String}
    (h : Syntax.IsTextOf e.tokens text) : IsElement env text :=
  ⟨e.branch 0, e.roots, e.readsElement h⟩

theorem exists_elementTexts {env : Env} {texts : List String} (h : ∀ e ∈ texts, IsElement env e) :
    ∃ es : List (ElementText env), es.map (·.text) = texts := by
  induction texts with
  | nil => exact ⟨[], rfl⟩
  | cons e texts ih =>
    obtain ⟨b, roots, hb⟩ := h e List.mem_cons_self
    obtain ⟨es, rfl⟩ := ih fun e' he => h e' (List.mem_cons_of_mem _ he)
    exact ⟨⟨e, b, roots, hb⟩ :: es, rfl⟩

/-- A bracket list of some elements, with a text behind it. -/
def listText (elements : List String) (suffix : String) : String := "[" ++ ",".intercalate elements ++ "]" ++ suffix

theorem listText_toList {env : Env} (e : ElementText env) (es : List (ElementText env)) (suffix : String) :
    (listText ((e :: es).map (·.text)) suffix).toList =
      '[' :: (e.text.toList ++ (ElementText.furtherText es ++ ']' :: suffix.toList)) := by
  have hbetween : ∀ (e : ElementText env) (es : List (ElementText env)),
      [','].intercalate (((e :: es).map (·.text)).map String.toList) =
        e.text.toList ++ ElementText.furtherText es := by
    intro e es
    induction es generalizing e with
    | nil => simp [ElementText.furtherText]
    | cons e' es ih =>
      have hih := ih e'
      simp only [List.map_cons] at hih ⊢
      rw [List.intercalate_cons_cons, hih]
      simp [ElementText.furtherText]
  have hcomma : ",".toList = [','] := rfl
  simp only [listText, String.toList_append, String.toList_intercalate, hcomma, hbetween]
  simp

/-- What a list goes on with, behind the path that it goes on with itself. -/
theorem Machine.run_list {env : Env} (e : ElementText env) (es : List (ElementText env)) (suffix : String)
    (position : Text.Position) (anchor : Anchor) (path : List Selector) (k : Nat) : ∃ position' k',
      (onPath (listText ((e :: es).map (·.text)) suffix).toList position anchor path k).run env =
        (onPath suffix.toList position' anchor
          (path ++ bracketSelectors (e.branch.renumber (k + ·)) (ElementText.branches (k + e.roots) es))
          k').run env := by
  obtain ⟨position', hreach⟩ := @ElementText.reaches_list env ((Assembly.empty.push anchor.instr).withPath path)
    suffix.toList rfl e es position k
  rw [← listText_toList] at hreach
  exact ⟨position', ElementText.rootsBehind (k + e.roots) es, hreach.run⟩

namespace Query

variable {env : Env} {text suffix : String} {p q : Query} {first : Instr} {path steps : List Selector}
  {doc : Value} {n : Node}

/-- What a list behind a path matches that matches one node. -/
theorem matchesOf_list (hf : first.IsAnchor) (hp : compileWith env text = .ok ⟨[first, .path path]⟩) {list : String}
    {env' : Env} {e : ElementText env'} {es : List (ElementText env')} {k k' : Nat}
    (hq : compileWith env list = .ok ⟨[first, .path (path ++
      (bracketSelectors (e.branch.renumber (k + ·)) (ElementText.branches (k + e.roots) es) ++
        renumberPath (k' + ·) steps))]⟩)
    (hn : (nodes ⟨[first, .path path]⟩ .located doc).result = .ok [n]) {ms : List (Location × Value)} :
    (matchesOf ⟨[first, .path (path ++
      (bracketSelectors (e.branch.renumber (k + ·)) (ElementText.branches (k + e.roots) es) ++
        renumberPath (k' + ·) steps))]⟩ .plain doc).result = .ok ms ↔
      Each (fun e part => ∃ ys, e.branch.FindsThen ⟨doc, true⟩ steps n ys ∧
        part = ys.map fun y => (y.location, y.value)) (e :: es) ms := by
  have hfinds := (nodes_iff_finds hf hp).1 hn
  have hall : ∀ ns, Finds (select .anew ⟨doc, true⟩ (path ++
      (bracketSelectors (e.branch.renumber (k + ·)) (ElementText.branches (k + e.roots) es) ++
        renumberPath (k' + ·) steps)) (.root doc)) ns ↔
      Each (fun e ys => e.branch.FindsThen ⟨doc, true⟩ steps n ys) (e :: es) ns := by
    intro ns
    rw [finds_select_append direct_anew, ← each_branches (k' + ·) steps (e :: es) k]
    constructor
    · rintro ⟨ks, hks, h⟩
      obtain rfl := hks.unique hfinds
      rw [each_singleton] at h
      exact (finds_bracketSelectors _ _ _).1 h
    · intro h
      refine ⟨[n], hfinds, ?_⟩
      rw [each_singleton]
      exact (finds_bracketSelectors _ _ _).2 h
  rw [matchesOf_iff_finds hf hq, each_map]
  simp only [hall]

/-- Behind a query that matches one node, a bracket list with a suffix matches what each of its elements matches with
the suffix, one after the other, and fails if one of these fails. -/
theorem lists_concatenate (hp : compileWith env text = .ok p) {elements : List String} (hne : elements ≠ [])
    (he : ∀ e ∈ elements, IsElement env.withLibrary e)
    (hq : compileWith env (text ++ listText elements suffix) = .ok q) :
    ∃ rs, List.Forall₂ (fun e r => compileWith env (text ++ listText [e] suffix) = .ok r) elements rs ∧
      ∀ (doc : Value) (n : Node), (p.nodes .located doc).result = .ok [n] →
        ∀ ms, (q.matchesOf .plain doc).result = .ok ms ↔
          ∃ parts, List.Forall₂ (fun r part => (matchesOf r .plain doc).result = .ok part) rs parts ∧
            ms = parts.flatten := by
  obtain ⟨es, rfl⟩ := exists_elementTexts he
  obtain ⟨e, es, rfl⟩ : ∃ e es', es = e :: es' := List.exists_cons_of_ne_nil fun h => hne (by rw [h]; rfl)
  obtain ⟨program, hprogram, rfl⟩ := map_eq_ok hp
  obtain ⟨anchor, path, k, position, rfl, -, happend⟩ := Program.ofText_append hprogram
  have hrun : ∀ (e : ElementText env.withLibrary) es, ∃ position' k', Program.ofText env.withLibrary
      (text ++ listText ((e :: es).map (·.text)) suffix) = (Machine.onPath suffix.toList position' anchor
        (path ++ bracketSelectors (e.branch.renumber (k + ·)) (ElementText.branches (k + e.roots) es)) k').run
          env.withLibrary := by
    intro e es
    rw [happend _ ⟨'[', _, listText_toList e es suffix, .inr rfl⟩]
    exact Machine.run_list e es suffix position anchor path k
  -- the suffix adds the same steps to every list
  obtain ⟨steps, hsteps⟩ : ∃ steps, Machine.AddsSteps env.withLibrary suffix.toList steps := by
    obtain ⟨longer, hlonger, -⟩ := map_eq_ok hq
    obtain ⟨position', k', hlist⟩ := hrun e es
    exact Machine.exists_addsSteps (hlist.symm.trans hlonger)
  have hcompile : ∀ (e : ElementText env.withLibrary) es, ∃ k',
      compileWith env (text ++ listText ((e :: es).map (·.text)) suffix) = .ok ⟨[anchor.instr, .path (path ++
        (bracketSelectors (e.branch.renumber (k + ·)) (ElementText.branches (k + e.roots) es) ++
          renumberPath (k' + ·) steps))]⟩ := by
    intro e es
    obtain ⟨position', k', hlist⟩ := hrun e es
    refine ⟨k', ?_⟩
    rw [compileWith, hlist, hsteps, List.append_assoc]
    rfl
  choose r hr using fun e => hcompile e []
  obtain ⟨k', hk'⟩ := hcompile e es
  rw [hk'] at hq
  cases hq
  refine ⟨(e :: es).map fun e => ⟨[anchor.instr, .path (path ++ (bracketSelectors (e.branch.renumber (k + ·)) [] ++
    renumberPath (r e + ·) steps))]⟩, ?_, ?_⟩
  · rw [List.forall₂_map_left_iff, List.forall₂_map_right_iff]
    exact List.forall₂_same.2 fun e _ => hr e
  · intro doc n hn ms
    have hpart : ∀ e part, (matchesOf ⟨[anchor.instr, .path (path ++ (bracketSelectors (e.branch.renumber (k + ·)) [] ++
        renumberPath (r e + ·) steps))]⟩ .plain doc).result = .ok part ↔
          ∃ ys, e.branch.FindsThen ⟨doc, true⟩ steps n ys ∧ part = ys.map fun y => (y.location, y.value) := by
      intro e part
      rw [← each_singleton (R := fun (e : ElementText env.withLibrary) (part : List (Location × Value)) =>
        ∃ ys, e.branch.FindsThen ⟨doc, true⟩ steps n ys ∧ part = ys.map fun y => (y.location, y.value))]
      exact matchesOf_list anchor.isAnchor hp (hr e) hn
    simp only [matchesOf_list anchor.isAnchor hp hk' hn, each_iff_forall₂, List.forall₂_map_left_iff, hpart]

theorem lists_concatenate_repeated :
    let doc : Value := .object [("a", .array [.null]), ("k", .array [.bool true])]
    ∃ q r r' part part', compileWith (.standard []) "$[a,$.k,a][0]" = .ok q ∧
      compileWith (.standard []) "$[a][0]" = .ok r ∧ compileWith (.standard []) "$[$.k][0]" = .ok r' ∧
      (r.matchesOf .plain doc).result = .ok part ∧
      (r'.matchesOf .plain doc).result = .ok part' ∧ (q.matchesOf .plain doc).result = .ok (part ++ part' ++ part) ∧
      (part ++ part' ++ part).map (·.1) =
        [[.name "a", .index 0], [.name "k", .index 0], [.name "a", .index 0]] := by
  intro doc
  have ha : IsElement (Env.standard []).withLibrary "a" :=
    isElement_of_isTextOf (.member (.bare ⟨'a', [], Syntax.plain_of_all (by decide)⟩ (by decide) (by decide)) [])
      (Syntax.isTextOf_texts (by decide))
  have hk : IsElement (Env.standard []).withLibrary "$.k" :=
    isElement_of_isTextOf (.root [.member (.bare ⟨'k', [], Syntax.plain_of_all (by decide)⟩)])
      (Syntax.isTextOf_texts (by decide))
  have hp : compileWith (.standard []) "$" = .ok ⟨[.root, .path [.root 0]]⟩ := compileWith_of_runFor (k := 20) rfl
  have hq : compileWith (.standard []) "$[a,$.k,a][0]" =
      .ok ⟨[.root, .path [.root 0, .union [[.current, .path [.member "a"]],
        [.root, .path [.root 1, .member "k"]], [.current, .path [.member "a"]]], .index 0]]⟩ :=
    compileWith_of_runFor (k := 40) rfl
  have hms : (matchesOf ⟨[.root, .path [.root 0, .union [[.current, .path [.member "a"]],
      [.root, .path [.root 1, .member "k"]], [.current, .path [.member "a"]]], .index 0]]⟩ .plain doc).result =
      .ok [([.name "a", .index 0], .null), ([.name "k", .index 0], .bool true), ([.name "a", .index 0], .null)] := rfl
  have htext : "$" ++ listText ["a", "$.k", "a"] "[0]" = "$[a,$.k,a][0]" := by decide
  obtain ⟨rs, hrs, h⟩ := lists_concatenate hp (List.cons_ne_nil _ _) (by simpa using ⟨ha, hk, ha⟩) (htext ▸ hq)
  obtain _ | @⟨_, r, _, _, hr, _ | @⟨_, r', _, _, hr', _ | @⟨_, r'', _, _, hr'', ⟨⟩⟩⟩⟩ := hrs
  obtain rfl : r = r'' := Except.ok.inj (hr.symm.trans hr'')
  obtain ⟨parts, hparts, hfound⟩ := (h doc (.root doc) rfl _).1 hms
  obtain _ | @⟨_, part, _, _, hpart, _ | @⟨_, part', _, _, hpart', _ | @⟨_, part'', _, _, hpart'', ⟨⟩⟩⟩⟩ := hparts
  obtain rfl : part = part'' := Except.ok.inj (hpart.symm.trans hpart'')
  have hconcat : [part, part', part].flatten = part ++ part' ++ part := by simp
  rw [hconcat] at hfound
  refine ⟨_, r, r', part, part', hq, hr, hr', hpart, hpart', ?_, ?_⟩
  · rw [← hfound]
    exact hms
  · rw [← hfound]
    rfl

end Query

end PathQuery
