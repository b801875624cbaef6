import PathQuery.Flags
import PathQuery.Query.Node

namespace PathQuery

/-- Drops the nodes at the start that have a location, and then every node that has the location of the one before. -/
def dropRepeatsOf (l : Location) : List Node → List Node
  | [] => []
  | n :: ns => if n.location = l then dropRepeatsOf l ns else n :: dropRepeatsOf n.location ns

/-- Keeps the first of neighbouring nodes with one location. -/
def dropRepeats : List Node → List Node
  | [] => []
  | n :: ns => n :: dropRepeatsOf n.location ns

/-- Keeps the first node at each location that has not been seen. -/
def firstsBeside (seen : List Location) : List Node → List Node
  | [] => []
  | n :: ns =>
    if n.location ∈ seen then firstsBeside seen ns else n :: firstsBeside (n.location :: seen) ns

def sortNodes (ns : List Node) : List Node := ns.mergeSort fun n m => n.location.le m.location

/-- Arranges nodes in the order that the flags ask for. -/
def Flags.arrange (f : Flags) (ns : List Node) : List Node :=
  if f.isSorted then
    let sorted := sortNodes ns
    let kept := if f.isDistinct then dropRepeats sorted else sorted
    if f.isDescending then kept.reverse else kept
  else if f.isDistinct then firstsBeside [] ns
  else ns

end PathQuery
