import PathQuery.Env
import PathQuery.Query.Assembly
import PathQuery.Query.Mode

namespace PathQuery

/-- A query that is partly read: the text that is left, its position, the modes, innermost first, the assembly, and
how many occurrences of the root have been read. -/
structure Machine where
  rest : List Char
  position : Text.Position
  modes : List Mode
  assembly : Assembly
  roots : Nat

namespace Machine

def start (text : List Char) : Machine := ⟨text, .start, [.start], .empty, 0⟩

/-- The query has been read to its end. -/
def isFinished (m : Machine) : Bool := m.rest.isEmpty && m.modes = [.path]

def fail {α : Type} (m : Machine) (fault : SyntaxFault) : Except SyntaxError α := .error ⟨fault, m.position⟩

/-- Goes on behind a character. -/
def past (m : Machine) (c : Char) (rest : List Char) : Machine := { m with rest, position := m.position.after c }

def goto (m : Machine) (modes : List Mode) : Machine := { m with modes }

/-- Adds to the assembly. -/
def emit (m : Machine) (f : Assembly → Assembly) : Machine := { m with assembly := f m.assembly }

/-- Changes the assembly where that may be a fault. -/
def attempt (m : Machine) (f : Assembly → Except SyntaxFault Assembly) : Except SyntaxError Machine :=
  match f m.assembly with
  | .ok assembly => .ok { m with assembly }
  | .error fault => m.fail fault

/-- A path from the root. -/
def emitRoot (m : Machine) : Machine :=
  { m with
    assembly := (m.assembly.push .root).pushSelector (.root m.roots)
    roots := m.roots + 1 }

/-- A path from the current node. -/
def emitCurrent (m : Machine) : Machine :=
  m.emit fun a => (a.push .current).pushSelector .current

def emitSelector (m : Machine) (s : Selector) : Machine := m.emit (·.pushSelector s)

def emitLiteral (m : Machine) (v : Value) : Machine := m.emit (·.push (.literal v))

def emitOperator (m : Machine) (op : Operator) : Machine := m.emit (·.pushOperator op)

def emitBinary (m : Machine) (op : BinaryOp) : Machine := m.emitOperator (.binary op)

/-- Opens a bracket list. -/
def openList (m : Machine) : Machine := m.emit (·.pushMark .union)

/-- Opens a call between its name and its arguments, which start behind the parenthesis. -/
def openCall (m : Machine) (env : Env) (name : String) (c : Char) (rest : List Char) :
    Except SyntaxError Machine :=
  match Function.find? name env.functions with
  | some f => .ok ((m.past c rest).emit fun a => (a.push .current).openScope (.call f))
  | none => m.fail .unknownFunction

/-- Bounds the number of steps that are left. -/
def weight (m : Machine) : Nat := 8 * m.rest.length + Mode.ranks m.modes

end Machine

end PathQuery
