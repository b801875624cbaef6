import PathQuery.Proofs.Query.Compiling
import PathQuery.Proofs.Query.Unlocated

namespace PathQuery

open Eval Strategy
open Syntax (Segment Source Token pathSelectors pathTokens)

section evaluation

variable {t : Strategy} {s : Setting}

/-- A path from the root of the document. -/
theorem evaluate_path {i : Instr} (hi : i.IsAnchor) (path : List Selector) :
    evaluate t s [i, .path path] (.root s.doc) = select t s path (.root s.doc) := by
  have hanchor : execute t s i (.root s.doc) [] = pure [.node (.root s.doc)] := by
    cases hi <;> rw [execute]
  have hpath : execute t s (.path path) (.root s.doc) [.node (.root s.doc)] =
      select t s path (.root s.doc) >>= fun found => pure [.found found] := by
    rw [execute]
    rfl
  simp only [evaluate, run, hanchor, hpath, pure_bind, bind_assoc, bind_pure]
  exact bind_pure _

theorem collect_pure (ns : List Node) : Eval.collect (fun n => pure ⟨[n], .single⟩) ns = pure ⟨ns, .many⟩ := by
  simp [collect, List.mapM_pure, List.flatMap_map]

theorem goOn_pure (kind : Kind) (n : Option Node) :
    Eval.goOn (fun n => pure ⟨[n], .single⟩) kind n = pure ⟨n.toList, n.elim kind fun _ => .single⟩ := by
  cases n <;> rfl

end evaluation

namespace Query

/-- `$` with a path behind it. -/
def ofPath (path : List Selector) : Query := ⟨[.root, .path (.root 0 :: path)]⟩

/-- Steps of which no token has to be set off can be written side by side. -/
theorem compileWith_root {env : Env} {path : List (Segment env.withLibrary)} {text : String}
    (ha : ∀ t ∈ pathTokens path, t.apart = false) (ht : text.toList = '$' :: (pathTokens path).flatMap Token.text) :
    compileWith env text = .ok (.ofPath (pathSelectors 1 path)) := by
  have htokens : (Source.root path).tokens = .char '$' :: pathTokens path := rfl
  have hall : ∀ t ∈ Token.char '$' :: pathTokens path, t.apart = false := by
    intro t ht
    rcases List.mem_cons.1 ht with rfl | ht
    · rfl
    · exact ha t ht
  have hwritten : (Source.root path).IsText text := by
    refine ⟨[], '$' :: (pathTokens path).flatMap Token.text, Syntax.blanks_nil, ?_, ht⟩
    rw [htokens]
    exact Syntax.written_texts hall
  exact compileWith_of_isText hwritten

/-- A query matches these nodes of a document, in this order. -/
structure Selects (q : Query) (doc : Value) (ps : List (Location × Value)) : Prop where
  matchesOf : (q.matchesOf .plain doc).result = .ok ps
  values : (q.evaluate .plain doc).result = .ok (.array (ps.map (·.2)))
  paths : (q.evaluate .paths doc).result = .ok (.array (ps.map fun p => .string p.1.text))

variable {q : Query} {doc : Value} {path : List Selector}

/-- A path from the root that calls nothing and reaches no other root finds what it selects. -/
theorem search_ofPath {keep : Bool} {m : Matches} (h : select .once ⟨doc, keep⟩ path (.root doc) = pure m) :
    ((ofPath path).search keep doc).result = .ok m := by
  have hroot : Session.empty.root? 0 = none := rfl
  show resultIn .empty (PathQuery.evaluate .once ⟨doc, keep⟩ [.root, .path (.root 0 :: path)] (.root doc)) = _
  rw [evaluate_path (s := ⟨doc, keep⟩) .root, select, follow, h]
  exact (once_ok hroot (resultIn_anew.trans resultIn_pure)).1

/-- The matches are what is found with locations, arranged. -/
theorem matchesOf_result (q : Query) (f : Flags) (doc : Value) : (q.matchesOf f doc).result =
    (q.search true doc).result.map fun m => (f.arrange m.nodes).map fun n => (n.location, n.value) := by
  simp only [matchesOf, nodes, Answer.map_map, f.tracksLocations_union_located, f.arrange_union_located]
  rfl

theorem selects_of_search {ns : List Node} {kind : Kind} (h : (q.search true doc).result = .ok ⟨ns, kind⟩) :
    q.Selects doc (ns.map fun n => (n.location, n.value)) := by
  have hmatches : ∀ f : Flags, f.arrange ns = ns →
      (q.matchesOf f doc).result = .ok (ns.map fun n => (n.location, n.value)) := by
    intro f hf
    rw [matchesOf_result, h, Except.map, hf]
  refine ⟨hmatches .plain rfl, ?_, ?_⟩
  · rw [evaluate_eq_map]
    show (q.matchesOf .plain doc).result.map _ = _
    rw [hmatches .plain rfl]
    rfl
  · rw [evaluate_eq_map]
    show (q.matchesOf .paths doc).result.map _ = _
    rw [hmatches .paths rfl]
    rfl

end Query

end PathQuery
