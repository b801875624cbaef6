import PathQuery.Query.Progress

namespace PathQuery

/-- Reads what is left of a query. -/
def Machine.run (env : Env) (m : Machine) : Except SyntaxError Program :=
  if m.isFinished then m.assembly.finish.mapError (⟨·, m.position⟩)
  else
    match _h : m.step env with
    | .error e => .error e
    | .ok next => run env next
termination_by m.weight
decreasing_by exact Machine.step_lowers _ _ _ ‹_›

/-- Compiles a query that calls no other functions than those of `env`. -/
def Program.ofText (env : Env) (s : String) : Except SyntaxError Program :=
  (Machine.start s.toList).run env

end PathQuery
