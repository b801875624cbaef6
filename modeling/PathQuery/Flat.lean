import PathQuery.Location.Reader

namespace PathQuery

/-- Why a flat document cannot be rebuilt. -/
inductive FlatError
  | notObject
  | badPath (key : String) (e : SyntaxError)
  | conflict (key : String)
  | gap (key : String)

def FlatError.message : FlatError → String
  | notObject => "Flattened document must be an object"
  | badPath key e => "Invalid path '" ++ key ++ "': " ++ e.message
  | conflict key => "Path '" ++ key ++ "' conflicts with an earlier path"
  | gap key => "Path '" ++ key ++ "' skips array elements"

namespace Value

mutual

/-- The scalars and empty containers of a document with their locations, in document order. -/
def leaves (l : Location) : Value → List (Location × Value)
  | array (v :: vs) => elementLeaves l 0 (v :: vs)
  | object (m :: ms) => memberLeaves l (m :: ms)
  | v => [(l, v)]

/-- The leaves of elements, the first of which has index `i`. -/
def elementLeaves (l : Location) (i : Nat) : List Value → List (Location × Value)
  | [] => []
  | v :: vs => leaves (l.child (.index i)) v ++ elementLeaves l (i + 1) vs

def memberLeaves (l : Location) : List (String × Value) → List (Location × Value)
  | [] => []
  | (name, v) :: ms => leaves (l.child (.name name)) v ++ memberLeaves l ms

end

/-- The leaves of a document as members named by their normalized paths. -/
def flatten (v : Value) : Value :=
  object (Members.ofList ((leaves .root v).map fun (l, leaf) => (l.text, leaf)))

/-- Writes a value at a location of a partly rebuilt document, in which `null` is a place not yet written.
Elements can be written in order only. -/
def place (key : String) (new : Value) : Location → Value → Except FlatError Value
  | [], null => .ok new
  | [], _ => .error (.conflict key)
  | .name s :: l, null => (place key new l null).map fun v => object [(s, v)]
  | .name s :: l, object ms =>
    (place key new l ((Members.find? s ms).getD null)).map fun v => object (Members.insert s v ms)
  | .index i :: l, null => if i > 0 then .error (.gap key) else (place key new l null).map fun v => array [v]
  | .index i :: l, array vs =>
    if i > vs.length then .error (.gap key)
    else (place key new l (vs[i]?.getD null)).map fun v => array (vs.take i ++ v :: vs.drop (i + 1))
  | _ :: _, _ => .error (.conflict key)

/-- Writes a member of a flat document. -/
def placeMember (doc : Value) (m : String × Value) : Except FlatError Value :=
  match Location.ofText m.1 with
  | .error e => .error (.badPath m.1 e)
  | .ok l => place m.1 m.2 l doc

/-- Rebuilds a document from a flat one. -/
def unflatten : Value → Except FlatError Value
  | object ms => ms.foldlM placeMember null
  | _ => .error .notObject

end Value

end PathQuery
