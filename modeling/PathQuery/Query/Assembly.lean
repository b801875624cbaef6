import PathQuery.Query.Basic
import PathQuery.SyntaxError

namespace PathQuery

/-- The start of a construct that is still open, or a border between two of its parts. -/
inductive Mark
  | union
  | separator
  | filter
  | computed
  | call (f : Function)
  | argument

/-- A part of a program that is being assembled. -/
inductive Item
  | instr (i : Instr)
  | mark (m : Mark)

/-- What waits for more of the query. -/
inductive Pending
  | operator (op : Operator)
  /-- An open parenthesis. -/
  | group
  /-- An open filter, computed key or call. -/
  | scope

/-- Items and what waits, both latest first. -/
structure Assembly where
  items : List Item
  pending : List Pending

namespace Item

def isUnion : Item → Bool
  | mark .union => true
  | _ => false

def isFilter : Item → Bool
  | mark .filter => true
  | _ => false

def isComputed : Item → Bool
  | mark .computed => true
  | _ => false

/-- A comma between two arguments, or the end of the last. -/
def isArgument : Item → Bool
  | mark .argument => true
  | _ => false

def isSeparator : Item → Bool
  | mark .separator => true
  | _ => false

def isCall : Item → Bool
  | mark (.call _) => true
  | _ => false

def instr? : Item → Option Instr
  | instr i => some i
  | mark _ => none

/-- Whether a branch that begins with this item says where it starts from. -/
def isAnchored : Item → Bool
  | instr .root | instr .current | instr (.literal _) => true
  | _ => false

end Item

/-- The instructions of some items, in order. A program leaves exactly one value. -/
def Program.ofItems (items : List Item) : Except SyntaxFault Program :=
  match items.mapM Item.instr? with
  | none => .error .unbalancedBraces
  | some p => if Program.height? 0 p = some 1 then .ok p else .error .malformed

/-- Splits a list at its separators. -/
def splitItems (isBorder : Item → Bool) : List Item → List (List Item)
  | [] => [[]]
  | i :: is =>
    if isBorder i then [] :: splitItems isBorder is
    else match splitItems isBorder is with
      | [] => [[i]]
      | part :: parts => (i :: part) :: parts

namespace Assembly

def empty : Assembly := ⟨[], []⟩

def push (a : Assembly) (i : Instr) : Assembly := { a with items := .instr i :: a.items }

def pushMark (a : Assembly) (m : Mark) : Assembly := { a with items := .mark m :: a.items }

/-- Selectors extend the path they follow; behind anything else they start one. -/
def pushPath (a : Assembly) (steps : List Selector) : Assembly :=
  match a.items with
  | .instr (.path path) :: items => { a with items := .instr (.path (path ++ steps)) :: items }
  | items => { a with items := .instr (.path steps) :: items }

def pushSelector (a : Assembly) (s : Selector) : Assembly := a.pushPath [s]

/-- Moves the waiting operators that precede `op` behind their operands. -/
def settle (op : Operator) : List Item → List Pending → Assembly
  | items, .operator top :: pending =>
    if top.precedes op then settle op (.instr top.instr :: items) pending
    else ⟨items, .operator top :: pending⟩
  | items, pending => ⟨items, pending⟩

def pushOperator (a : Assembly) (op : Operator) : Assembly :=
  let settled := settle op a.items a.pending
  { settled with pending := .operator op :: settled.pending }

def openGroup (a : Assembly) : Assembly := { a with pending := .group :: a.pending }

/-- Opens a filter, computed key or call. -/
def openScope (a : Assembly) (m : Mark) : Assembly := ⟨.mark m :: a.items, .scope :: a.pending⟩

/-- Whether a parenthesis is open in the innermost scope. -/
def hasOpenGroup (a : Assembly) : Bool := go a.pending
where
  go : List Pending → Bool
    | .operator _ :: pending => go pending
    | .group :: _ => true
    | .scope :: _ => false
    | [] => false

/-- Moves the operators of the innermost group or scope behind their operands. -/
def settleAll : List Item → List Pending → Assembly
  | items, .operator op :: pending => settleAll (.instr op.instr :: items) pending
  | items, pending => ⟨items, pending⟩

def settled (a : Assembly) : Assembly := settleAll a.items a.pending

def closeGroup (a : Assembly) : Except SyntaxFault Assembly :=
  match a.settled with
  | ⟨items, .group :: pending⟩ => .ok ⟨items, pending⟩
  | _ => .error .unbalancedParenthesis

/-- Settles the operators of the innermost scope, which must be open. -/
def settleScope (a : Assembly) : Except SyntaxFault Assembly :=
  match a.settled with
  | ⟨items, .scope :: pending⟩ => .ok ⟨items, .scope :: pending⟩
  | _ => .error .unbalancedParenthesis

def closeScope (a : Assembly) : Except SyntaxFault Assembly :=
  match a.settled with
  | ⟨items, .scope :: pending⟩ => .ok ⟨items, pending⟩
  | _ => .error .unbalancedParenthesis

/-- Takes the items back to the latest mark of a kind: the mark, the items behind it in order, and what is left. -/
def takeTo (isMark : Item → Bool) (a : Assembly) : Except SyntaxFault (Item × List Item × Assembly) :=
  match a.items.dropWhile (!isMark ·) with
  | m :: items => .ok (m, (a.items.takeWhile (!isMark ·)).reverse, { a with items })
  | [] => .error .unbalancedBraces

/-- Closes a construct that holds one expression: the items behind its mark make a selector. -/
def closeExpression (isMark : Item → Bool) (selector : Program → Selector) (a : Assembly) :
    Except SyntaxFault Assembly := do
  let (_, items, a) ← (← a.closeScope).takeTo isMark
  return a.pushSelector (selector (← Program.ofItems items))

def closeFilter : Assembly → Except SyntaxFault Assembly := closeExpression Item.isFilter .filter

def closeComputed : Assembly → Except SyntaxFault Assembly := closeExpression Item.isComputed .computed

/-- Completes an argument of the innermost call. -/
def closeArgument (a : Assembly) : Except SyntaxFault Assembly :=
  a.settleScope.map (·.pushMark .argument)

/-- Completes the argument before the closing parenthesis, if there is one. -/
def closeLastArgument (a : Assembly) : Except SyntaxFault Assembly :=
  if a.items.head?.any fun i => i.isCall || i.isArgument then .ok a else a.closeArgument

/-- The arguments of a call. Each ends with a mark, so nothing is left behind the last. -/
def argumentsOf (items : List Item) : Except SyntaxFault (List Program) :=
  let parts := splitItems Item.isArgument items
  (if parts.getLast?.any List.isEmpty then parts.dropLast else parts).mapM Program.ofItems

def closeCall (a : Assembly) : Except SyntaxFault Assembly := do
  let (m, items, a) ← (← (← a.closeLastArgument).closeScope).takeTo Item.isCall
  match m with
  | .mark (.call f) =>
    let arguments ← argumentsOf items
    if f.accepts arguments.length then .ok (a.pushSelector (.call f arguments)) else .error .wrongArity
  | _ => .error .malformed

/-- A branch of a bracket list starts from the current node unless it says otherwise. -/
def branchOf (items : List Item) : Except SyntaxFault Program :=
  Program.ofItems (if items.head?.any Item.isAnchored then items else .instr .current :: items)

/-- Closes a bracket list. A path that is its only branch just goes on; otherwise the branches form a union. -/
def closeUnion (a : Assembly) : Except SyntaxFault Assembly := do
  let (_, items, a) ← a.takeTo Item.isUnion
  match items with
  | [.instr (.path steps)] => return a.pushPath steps
  | _ => return a.pushSelector (.union (← (splitItems Item.isSeparator items).mapM branchOf))

/-- The program of a whole query. -/
def finish (a : Assembly) : Except SyntaxFault Program :=
  match a.settled with
  | ⟨items, []⟩ => Program.ofItems items.reverse
  | _ => .error .unbalancedParenthesis

end Assembly

end PathQuery
