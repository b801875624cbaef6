import PathQuery.Location.Basic
import PathQuery.Decimal.Basic
import PathQuery.SyntaxError
import PathQuery.Text.Blank

namespace PathQuery.Location

/-- Where a step is written: between brackets, where `]` ends it, or behind a dot. -/
inductive Form
  | bracket
  | dot
  deriving DecidableEq

/-- What the reader is inside of. Names are kept last character first, and so are digits. -/
inductive Scan
  | start
  /-- Between two steps. -/
  | gap
  /-- Behind `[`, before the step. -/
  | bracket
  | quoted (form : Form) (quote : Char) (read : List Char)
  | escape (form : Form) (quote : Char) (read : List Char) (e : Text.Escape)
  | digits (form : Form) (read : List Char)
  /-- Behind the step, before `]`. -/
  | closing
  /-- Behind a dot. -/
  | dot
  | bare (read : List Char)

/-- A partly read text: the steps that are complete, last first, and what the reader is inside of. -/
structure Reading where
  steps : List Step
  scan : Scan

namespace Reading

def start : Reading := ⟨[], .start⟩

/-- Completes a step that ends with the character before. -/
def push (r : Reading) (form : Form) (s : Step) : Reading :=
  ⟨s :: r.steps, if form = .bracket then .closing else .gap⟩

def pushName (r : Reading) (form : Form) (read : List Char) : Reading :=
  r.push form (.name (String.ofList read.reverse))

/-- Completes an index. An index is at most 64 bits wide. -/
def pushIndex (r : Reading) (form : Form) (read : List Char) : Except SyntaxFault Reading :=
  let i := natOfDigits read.reverse
  if i < UInt64.size then .ok (r.push form (.index i)) else .error .badNumber

def nextInGap (r : Reading) (c : Char) : Except SyntaxFault Reading :=
  if Text.isBlank c then .ok { r with scan := .gap }
  else if c = '[' then .ok { r with scan := .bracket }
  else if c = '.' then .ok { r with scan := .dot }
  else .error .expectedSeparator

def nextClosing (r : Reading) (c : Char) : Except SyntaxFault Reading :=
  if Text.isBlank c then .ok { r with scan := .closing }
  else if c = ']' then .ok { r with scan := .gap }
  else .error .expectedClosingBracket

/-- Behind a complete step, whichever way it is written. -/
def nextAfter (r : Reading) (form : Form) (c : Char) : Except SyntaxFault Reading :=
  if form = .bracket then r.nextClosing c else r.nextInGap c

/-- Reads one character at a position. -/
def next (r : Reading) (p : Text.Position) (c : Char) : Except SyntaxError Reading :=
  let fail (fault : SyntaxFault) : Except SyntaxError Reading := .error ⟨fault, p⟩
  match r.scan with
  | .start =>
    if Text.isBlank c then .ok r
    else if c = '$' || c = '@' then .ok { r with scan := .gap }
    else fail .expectedNode
  | .gap => (r.nextInGap c).mapError (⟨·, p⟩)
  | .bracket =>
    if Text.isBlank c then .ok r
    else if c = '\'' || c = '"' then .ok { r with scan := .quoted .bracket c [] }
    else if c.isDigit then .ok { r with scan := .digits .bracket [c] }
    else fail .expectedQuoteOrDigit
  | .quoted form quote read =>
    if c = quote then .ok (r.pushName form read)
    else if c = '\\' then .ok { r with scan := .escape form quote read .backslash }
    else .ok { r with scan := .quoted form quote (c :: read) }
  | .escape form quote read e =>
    match e.next Text.nameEscape? c with
    | .more e => .ok { r with scan := .escape form quote read e }
    | .char d => .ok { r with scan := .quoted form quote (d :: read) }
    | .unknown => fail .unknownEscape
    | .stray => fail .badCodePoint
    | .lone => .error ⟨.badCodePoint, p.after c⟩
  | .digits form read =>
    if c.isDigit then .ok { r with scan := .digits form (c :: read) }
    else ((r.pushIndex form read).bind (·.nextAfter form c)).mapError (⟨·, p⟩)
  | .closing => (r.nextClosing c).mapError (⟨·, p⟩)
  | .dot =>
    if c = '\'' || c = '"' then .ok { r with scan := .quoted .dot c [] }
    else if c.isDigit then .ok { r with scan := .digits .dot [c] }
    else if c = '.' || c = '[' then fail .expectedName
    else if Text.isBlank c then ((r.pushName .dot []).nextInGap c).mapError (⟨·, p⟩)
    else .ok { r with scan := .bare [c] }
  | .bare read =>
    if c = '.' || c = '[' || Text.isBlank c then ((r.pushName .dot read).nextInGap c).mapError (⟨·, p⟩)
    else .ok { r with scan := .bare (c :: read) }

/-- The location, if the text may end here. -/
def finish (r : Reading) : Except SyntaxFault Location :=
  match r.scan with
  | .gap => .ok r.steps.reverse
  | .digits form read =>
    (r.pushIndex form read).bind fun r =>
      if form = .dot then .ok r.steps.reverse else .error .unexpectedEnd
  | .bare read => .ok (r.pushName .dot read).steps.reverse
  | .escape _ _ _ (.pair _) | .escape _ _ _ (.pairBackslash _) => .error .badCodePoint
  | _ => .error .unexpectedEnd

/-- Reads the characters that are left. -/
def run (r : Reading) (p : Text.Position) : List Char → Except SyntaxError Location
  | [] => r.finish.mapError (⟨·, p⟩)
  | c :: cs => (r.next p c).bind fun r => run r (p.after c) cs

end Reading

/-- Reads a location text. -/
def ofText (s : String) : Except SyntaxError Location :=
  Reading.start.run .start s.toList

end PathQuery.Location
