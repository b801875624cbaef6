import PathQuery.Function.Library

namespace PathQuery

/-- What a query is compiled with: readers of what is embedded in its text, and the functions that it can call. Of two
functions with one name the later counts. -/
structure Env extends Readers where
  functions : List Function

namespace Env

/-- The built-in functions, unless there are others of the same name. -/
def withLibrary (env : Env) : Env := { env with functions := Library.functions env.toReaders ++ env.functions }

@[simp] theorem withLibrary_toReaders (env : Env) : env.withLibrary.toReaders = env.toReaders := rfl

@[simp] theorem withLibrary_functions (env : Env) :
    env.withLibrary.functions = Library.functions env.toReaders ++ env.functions := rfl

end Env

end PathQuery
