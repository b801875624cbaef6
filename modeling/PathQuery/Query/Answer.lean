import PathQuery.Query.Compile
import PathQuery.Query.Evaluation
import PathQuery.Query.Order

namespace PathQuery

/-- A compiled query. It can be evaluated against any number of documents. -/
structure Query where
  program : Program

/-- The result of an evaluation and what it did on the way, which is known also if it fails. -/
structure Answer (α : Type) where
  result : Except EvalError α
  events : List Event

namespace Answer

def map {α β : Type} (f : α → β) (a : Answer α) : Answer β := ⟨a.result.map f, a.events⟩

/-- The calls of functions, in their order. -/
def calls {α : Type} (a : Answer α) : List Call := a.events.filterMap Event.call?

end Answer

namespace Query

/-- Compiles a query that can call the functions of `env`, which replace built-in ones of the same name, and the other
built-in ones. -/
def compileWith (env : Env) (s : String) : Except SyntaxError Query :=
  (Program.ofText env.withLibrary s).map (⟨·⟩)

/-- Evaluates a query from the root of a document by a strategy for paths from the root. -/
def searchBy (t : Strategy) (q : Query) (keep : Bool) (doc : Value) : Answer Matches :=
  let (result, session) := (evaluate t ⟨doc, keep⟩ q.program (.root doc)).run.run .empty
  ⟨result, session.events.reverse⟩

def search (q : Query) (keep : Bool) (doc : Value) : Answer Matches := q.searchBy .once keep doc

/-- The nodes that match, in the order that the flags ask for. -/
def nodes (q : Query) (f : Flags) (doc : Value) : Answer (List Node) :=
  (q.search f.tracksLocations doc).map fun m => f.arrange m.nodes

/-- All matches as an array: their values, or their normalized paths. -/
def evaluate (q : Query) (f : Flags) (doc : Value) : Answer Value :=
  (q.nodes f doc).map fun ns =>
    .array (ns.map fun n => if f.wantsPaths then .string n.location.text else n.value)

/-- All matches with their locations. -/
def matchesOf (q : Query) (f : Flags) (doc : Value) : Answer (List (Location × Value)) :=
  (q.nodes (f.union .located) doc).map fun ns => ns.map fun n => (n.location, n.value)

/-- The locations of the matches, each once, in ascending order. -/
def locations (q : Query) (doc : Value) : Answer (List Location) :=
  (q.nodes (Flags.distinct.union .ascending) doc).map fun ns => ns.map (·.location)

/-- The locations of the matches that stand in the document, each once, in descending order: every location comes
before those above it, and of the elements of an array the last comes first. -/
def documentLocations (q : Query) (doc : Value) : Answer (List Location) :=
  (q.nodes (Flags.distinct.union .descending) doc).map fun ns =>
    (ns.filter (!·.computed)).map (·.location)

end Query

end PathQuery
