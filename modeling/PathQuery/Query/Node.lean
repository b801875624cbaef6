import PathQuery.Decimal.Basic
import PathQuery.Location.Basic
import PathQuery.Query.Slice

namespace PathQuery

/-- A value with its location. A computed value does not stand in the document. -/
structure Node where
  location : Location
  value : Value
  computed : Bool

namespace Node

/-- The root of a document. -/
def root (doc : Value) : Node := ⟨.root, doc, false⟩

/-- A child of a node. Where locations are not kept it has that of the root. It is computed if the node is. -/
def child (keep : Bool) (n : Node) (s : Step) (v : Value) : Node :=
  ⟨if keep then n.location.child s else .root, v, n.computed⟩

/-- A computed value at the location of a node. -/
def compute (n : Node) (v : Value) : Node := ⟨n.location, v, true⟩

def elements (keep : Bool) (n : Node) : List Node :=
  n.value.elements.zipIdx.map fun (v, i) => n.child keep (.index i) v

def members (keep : Bool) (n : Node) : List Node :=
  n.value.members.map fun (name, v) => n.child keep (.name name) v

/-- The nodes directly below, in document order. -/
def children (keep : Bool) (n : Node) : List Node := n.elements keep ++ n.members keep

def element? (keep : Bool) (n : Node) (i : Nat) : Option Node :=
  (n.value.element? i).map (n.child keep (.index i))

/-- The element at an index that may count from the end. -/
def at? (keep : Bool) (n : Node) (i : Int) : Option Node :=
  (resolveIndex? i n.value.elements.length).bind (n.element? keep)

def member? (keep : Bool) (n : Node) (name : String) : Option Node :=
  (n.value.member? name).map (n.child keep (.name name))

/-- A length, as if it were a member. -/
def length (keep : Bool) (n : Node) (size : Nat) : Node :=
  (n.child keep (.name "length") .null).compute (.ofNat size)

/-- What a name leads to: a member of an object, an element of an array if the name is an integer, or the length of
an array or string. -/
def named? (keep : Bool) (n : Node) (name : String) : Option Node :=
  match n.value with
  | .object _ => n.member? keep name
  | .array vs =>
    match (readInt? name.toList).bind int64? with
    | some i => n.at? keep i
    | none => if name = "length" then some (n.length keep vs.length) else none
  | .string s => if name = "length" then some (n.length keep s.length) else none
  | _ => none

/-- What a computed key leads to: an integer to an element of an array, a string to a member of an object. -/
def keyed? (keep : Bool) (n : Node) (key : Value) : Option Node :=
  match n.value with
  | .array _ => key.asInt64?.bind (n.at? keep)
  | .object _ => key.asString?.bind (n.member? keep)
  | _ => none

/-- The elements that a slice selects, in its order. -/
def sliced (keep : Bool) (n : Node) (s : Slice) : List Node :=
  (s.indices n.value.elements.length).filterMap (n.element? keep)

mutual

/-- The containers at and below a value, each before what it contains. -/
def containersAt (keep : Bool) (l : Location) (computed : Bool) : Value → List Node
  | .array vs => ⟨l, .array vs, computed⟩ :: elementContainers keep l computed 0 vs
  | .object ms => ⟨l, .object ms, computed⟩ :: memberContainers keep l computed ms
  | _ => []

/-- The containers at and below elements, the first of which has index `i`. -/
def elementContainers (keep : Bool) (l : Location) (computed : Bool) (i : Nat) : List Value → List Node
  | [] => []
  | v :: vs =>
    containersAt keep (if keep then l.child (.index i) else .root) computed v
      ++ elementContainers keep l computed (i + 1) vs

def memberContainers (keep : Bool) (l : Location) (computed : Bool) : List (String × Value) → List Node
  | [] => []
  | (name, v) :: ms =>
    containersAt keep (if keep then l.child (.name name) else .root) computed v
      ++ memberContainers keep l computed ms

end

/-- The containers at and below a node. -/
def containers (keep : Bool) (n : Node) : List Node := containersAt keep n.location n.computed n.value

/-- What a filter tests: the elements of an array, or an object as a whole. -/
def candidates (keep : Bool) (n : Node) : List Node :=
  match n.value with
  | .array _ => n.elements keep
  | .object _ => [n]
  | _ => []

end Node

end PathQuery
