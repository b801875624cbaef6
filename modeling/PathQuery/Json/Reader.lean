import PathQuery.Json.Lexeme

namespace PathQuery.Json

/-- A container that is still open, with what it holds so far. Its elements come last first; of an object the name
of the member that is being read is known. -/
inductive Open
  | array (read : List Value)
  | object (read : Members Value) (name : String)

/-- What may come next. -/
inductive Expect
  | value
  | valueOrClose
  | name (read : Members Value)
  | nameOrClose
  | colon (read : Members Value) (name : String)
  | after (v : Value)

/-- How many containers may be open at once. -/
def depthLimit : Nat := 127

/-- Reads the lexemes that are left, given what is expected and which containers are open. -/
def read : Expect → List Open → List Lexeme → Option Value
  | .value, os, .scalar v :: ls => read (.after v) os ls
  | .value, os, .openArray :: ls =>
    if os.length < depthLimit then read .valueOrClose (.array [] :: os) ls else none
  | .value, os, .openObject :: ls => if os.length < depthLimit then read .nameOrClose os ls else none
  | .valueOrClose, _ :: os, .closeArray :: ls => read (.after (.array [])) os ls
  | .valueOrClose, os, .scalar v :: ls => read (.after v) os ls
  | .valueOrClose, os, .openArray :: ls =>
    if os.length < depthLimit then read .valueOrClose (.array [] :: os) ls else none
  | .valueOrClose, os, .openObject :: ls => if os.length < depthLimit then read .nameOrClose os ls else none
  | .nameOrClose, os, .closeObject :: ls => read (.after (.object [])) os ls
  | .nameOrClose, os, .scalar (.string s) :: ls => read (.colon [] s) os ls
  | .name ms, os, .scalar (.string s) :: ls => read (.colon ms s) os ls
  | .colon ms s, os, .colon :: ls => read .value (.object ms s :: os) ls
  | .after v, .array vs :: os, .comma :: ls => read .value (.array (v :: vs) :: os) ls
  | .after v, .array vs :: os, .closeArray :: ls => read (.after (.array (v :: vs).reverse)) os ls
  | .after v, .object ms s :: os, .comma :: ls => read (.name (ms.insert s v)) os ls
  | .after v, .object ms s :: os, .closeObject :: ls => read (.after (.object (ms.insert s v))) os ls
  | .after v, [], [] => some v
  | _, _, _ => none

end PathQuery.Json

namespace PathQuery.Value

/-- Reads a JSON text, blanks around it allowed. A repeated member keeps its first place and its last value. -/
def ofText? (s : String) : Option Value :=
  (Json.lexemes .between s.toList).bind (Json.read .value [])

end PathQuery.Value
