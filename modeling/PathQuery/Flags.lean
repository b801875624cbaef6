namespace PathQuery

/-- A byte of flags. Bits without a name are allowed; like the others they make locations known. -/
structure Flags where
  bits : UInt8
  deriving DecidableEq

namespace Flags

/-- Values, in the order in which they are found. -/
def plain : Flags := ⟨0⟩

/-- Normalized paths instead of values. -/
def paths : Flags := ⟨1⟩

/-- Each location once. -/
def distinct : Flags := ⟨2⟩

/-- In the order of locations. -/
def ascending : Flags := ⟨4⟩

/-- In the reverse order of locations. -/
def descending : Flags := ⟨8⟩

/-- Locations are needed by the caller. -/
def located : Flags := ⟨128⟩

def union (f g : Flags) : Flags := ⟨f.bits ||| g.bits⟩

def contains (f g : Flags) : Bool := f.bits &&& g.bits == g.bits

def wantsPaths (f : Flags) : Bool := f.contains paths

def isDistinct (f : Flags) : Bool := f.contains distinct

def isDescending (f : Flags) : Bool := f.contains descending

def isSorted (f : Flags) : Bool := f.contains ascending || f.contains descending

/-- Whether an evaluation has to keep locations. -/
def tracksLocations (f : Flags) : Bool := f.bits != 0

end Flags

end PathQuery
