import PathQuery.Decimal.Basic
import PathQuery.Regex.Basic
import PathQuery.Text.Alphabetic
import PathQuery.Text.Escape

namespace PathQuery.Regex

/-- The flags in force: letters match in either case, `^` and `$` match at lines, `.` matches a line feed, and
repetitions are greedy only if marked with `?`. -/
structure Modifiers where
  fold : Bool
  lines : Bool
  dotAll : Bool
  swapGreed : Bool

/-- What an escape or a plain character stands for. -/
inductive Atom
  | char (c : Char)
  | set (s : CharSet)
  | look (l : Look)

/-- The character of a hexadecimal number. -/
def hexChar? (ds : List Char) : Option Char := do
  if ds.isEmpty then none
  let n ← ds.foldlM (fun n c => (Text.hexValue? c).map (16 * n + ·)) 0
  if h : n.isValidChar then some (Char.ofNatAux n h) else none

/-- A hexadecimal number of `width` digits, or of any number of digits in braces. -/
def readHex (width : Nat) : List Char → Option (Char × List Char)
  | '\x7b' :: cs =>
    match cs.dropWhile (· ≠ '\x7d') with
    | _ :: rest => (hexChar? (cs.takeWhile (· ≠ '\x7d'))).map (·, rest)
    | [] => none
  | cs => if cs.length < width then none else (hexChar? (cs.take width)).map (·, cs.drop width)

/-- Reads an escape behind its backslash. -/
def readEscape : List Char → Option (Atom × List Char)
  | [] => none
  | c :: cs =>
    match c with
    | 'd' => some (.set .digit, cs)
    | 'D' => some (.set (.complement .digit), cs)
    | 's' => some (.set .blank, cs)
    | 'S' => some (.set (.complement .blank), cs)
    | 'w' => some (.set .word, cs)
    | 'W' => some (.set (.complement .word), cs)
    | 'b' => some (.look .wordBoundary, cs)
    | 'B' => some (.look .noWordBoundary, cs)
    | 'A' => some (.look .textStart, cs)
    | 'z' => some (.look .textEnd, cs)
    | 'n' => some (.char '\n', cs)
    | 'r' => some (.char '\r', cs)
    | 't' => some (.char '\t', cs)
    | 'f' => some (.char '\x0c', cs)
    | 'v' => some (.char '\x0b', cs)
    | 'a' => some (.char '\x07', cs)
    | 'x' => (readHex 2 cs).map fun (d, rest) => (.char d, rest)
    | 'u' => (readHex 4 cs).map fun (d, rest) => (.char d, rest)
    | 'U' => (readHex 8 cs).map fun (d, rest) => (.char d, rest)
    | _ => if 128 ≤ c.toNat || c.isAlphanum || c = '<' || c = '>' then none else some (.char c, cs)

/-- Reads an atom of a set: an escape or any character. -/
def readSetAtom : List Char → Option (Atom × List Char)
  | [] => none
  | '\\' :: cs => readEscape cs
  | c :: cs => some (.char c, cs)

/-- Reads one item of a set: a character, a range or a set escape. -/
def readSetItem (cs : List Char) : Option (CharSet × List Char) := do
  let (a, rest) ← readSetAtom cs
  match a, rest with
  | .char _, '-' :: ']' :: _ | .char _, '-' :: '-' :: _ => match a with
    | .char c => some (.single c, rest)
    | _ => none
  | .char c, '-' :: rest =>
    match ← readSetAtom rest with
    | (.char d, rest) => if c ≤ d then some (.range c.toNat d.toNat, rest) else none
    | _ => none
  | .char c, _ => some (.single c, rest)
  | .set s, '-' :: d :: _ => if d = ']' || d = '-' then some (s, rest) else none
  | .set s, _ => some (s, rest)
  | .look _, _ => none

/-- The named ASCII sets. -/
def namedSet? (name : String) : Option CharSet :=
  let upper := CharSet.range 0x41 0x5A
  let lower := CharSet.range 0x61 0x7A
  let number := CharSet.range 0x30 0x39
  let letter := CharSet.union upper lower
  match name with
  | "alnum" => some (.union letter number)
  | "alpha" => some letter
  | "ascii" => some (.range 0 0x7F)
  | "blank" => some (.union (.single '\t') (.single ' '))
  | "cntrl" => some (.union (.range 0 0x1F) (.single '\x7f'))
  | "digit" => some number
  | "graph" => some (.range 0x21 0x7E)
  | "lower" => some lower
  | "print" => some (.range 0x20 0x7E)
  | "punct" => some (.inter (.range 0x21 0x7E) (.complement (.union letter number)))
  | "space" => some (.union (.range 0x09 0x0D) (.single ' '))
  | "upper" => some upper
  | "word" => some (.union (.union letter number) (.single '_'))
  | "xdigit" => some (.union number (.union (.range 0x41 0x46) (.range 0x61 0x66)))
  | _ => none

/-- Reads a named set behind its bracket, as in `:alpha:]`. -/
def readNamedSet : List Char → Option (CharSet × List Char)
  | ':' :: cs =>
    let (negated, cs) := match cs with
      | '^' :: cs => (true, cs)
      | _ => (false, cs)
    match cs.dropWhile (· ≠ ':') with
    | ':' :: ']' :: rest =>
      (namedSet? (String.ofList (cs.takeWhile (· ≠ ':')))).map fun s =>
        (if negated then .complement s else s, rest)
    | _ => none
  | _ => none

/-- How two parts of a set are combined. -/
inductive SetOp
  | inter
  | diff
  | symmDiff

def SetOp.apply (s t : CharSet) : SetOp → CharSet
  | inter => .inter s t
  | diff => .inter s (.complement t)
  | symmDiff => .inter (.union s t) (.complement (.inter s t))

/-- A set that is being read: its items since the last operator, and what stands before that operator. -/
structure SetReading where
  fold : Bool
  negated : Bool
  items : CharSet
  before : Option (SetOp × CharSet)

namespace SetReading

def add (r : SetReading) (s : CharSet) : SetReading := { r with items := .union r.items s }

/-- Everything that has been read. -/
def content (r : SetReading) : CharSet :=
  let items := if r.fold then .folded r.items else r.items
  match r.before with
  | some (op, s) => op.apply s items
  | none => items

def operate (r : SetReading) (op : SetOp) : SetReading :=
  { r with items := .empty, before := some (op, r.content) }

def close (r : SetReading) : CharSet := if r.negated then .complement r.content else r.content

/-- Opens a set behind its bracket. Dashes that come first are literal, and so is a bracket in first place. -/
def start (fold : Bool) (cs : List Char) : SetReading × List Char :=
  let (negated, cs) := match cs with
    | '^' :: cs => (true, cs)
    | _ => (false, cs)
  let dashes := cs.takeWhile (· == '-')
  match dashes, cs.dropWhile (· == '-') with
  | [], ']' :: rest => (⟨fold, negated, .single ']', none⟩, rest)
  | [], rest => (⟨fold, negated, .empty, none⟩, rest)
  | _, rest => (⟨fold, negated, .single '-', none⟩, rest)

end SetReading

/-- Reads a set up to its closing bracket. Every round consumes a character, so the length of the text is fuel
enough. -/
def readSet : Nat → SetReading → List Char → Option (CharSet × List Char)
  | 0, _, _ => none
  | _, _, [] => none
  | fuel + 1, r, c :: cs =>
    match c, cs with
    | ']', _ => some (r.close, cs)
    | '[', _ =>
      match readNamedSet cs with
      | some (s, rest) => readSet fuel (r.add s) rest
      | none =>
        let (inner, rest) := SetReading.start r.fold cs
        match readSet fuel inner rest with
        | some (s, rest) => readSet fuel (r.add s) rest
        | none => none
    | '&', '&' :: rest => readSet fuel (r.operate .inter) rest
    | '-', '-' :: rest => readSet fuel (r.operate .diff) rest
    | '~', '~' :: rest => readSet fuel (r.operate .symmDiff) rest
    | _, _ =>
      match readSetItem (c :: cs) with
      | some (s, rest) => readSet fuel (r.add s) rest
      | none => none

/-- A decimal number, blanks around it allowed. -/
def readCount (cs : List Char) : Option (Nat × List Char) :=
  let cs := cs.dropWhile Text.isBlank
  let ds := cs.takeWhile Char.isDigit
  let n := natOfDigits ds
  if ds.isEmpty || n ≥ UInt32.size then none
  else some (n, (cs.dropWhile Char.isDigit).dropWhile Text.isBlank)

/-- Reads the bounds of a counted repetition behind the brace. -/
def readBounds (cs : List Char) : Option (Nat × Option Nat × List Char) := do
  let (least, rest) ← readCount cs
  match rest with
  | '\x7d' :: rest => some (least, some least, rest)
  | ',' :: '\x7d' :: rest => some (least, none, rest)
  | ',' :: rest =>
    let (most, rest) ← readCount rest
    match rest with
    | '\x7d' :: rest => if least ≤ most then some (least, some most, rest) else none
    | _ => none
  | _ => none

/-- Reads a repetition operator without its mark of greed. -/
def readRepetition : List Char → Option (Nat × Option Nat × List Char)
  | '*' :: cs => some (0, none, cs)
  | '+' :: cs => some (1, none, cs)
  | '?' :: cs => some (0, some 1, cs)
  | '\x7b' :: cs => readBounds cs
  | _ => none

def isRepetition (c : Char) : Bool := c = '*' || c = '+' || c = '?' || c = '\x7b'

/-- Sets one flag; an unknown flag is refused. -/
def Modifiers.set? (m : Modifiers) (on : Bool) : Char → Option Modifiers
  | 'i' => some { m with fold := on }
  | 'm' => some { m with lines := on }
  | 's' => some { m with dotAll := on }
  | 'U' => some { m with swapGreed := on }
  | 'u' => if on then some m else none
  | _ => none

/-- Sets the flags of a list such as `im-s`. A flag comes once, and after the dash comes at least one. -/
def Modifiers.setAll? (m : Modifiers) (cs : List Char) : Option Modifiers :=
  let on := cs.takeWhile (· ≠ '-')
  let off := (cs.dropWhile (· ≠ '-')).drop 1
  if (on ++ off).eraseDups.length ≠ (on ++ off).length || (cs.contains '-' && off.isEmpty) then none
  else do
    let m ← on.foldlM (fun m c => m.set? true c) m
    off.foldlM (fun m c => m.set? false c) m

/-- A group that is still open: the alternatives that are complete, the items of the one being read, last first, and
the flags in force. An item that only sets flags is absent; it cannot be repeated. -/
structure Group where
  alternatives : Option Regex
  items : List (Option Regex)
  modifiers : Modifiers

namespace Group

def start (m : Modifiers) : Group := ⟨none, [], m⟩

def push (g : Group) (p : Regex) : Group := { g with items := some p :: g.items }

def sequence (g : Group) : Regex :=
  match g.items.reverse.filterMap id with
  | [] => .empty
  | p :: ps => ps.foldl .seq p

def close (g : Group) : Regex :=
  match g.alternatives with
  | some p => .alt p g.sequence
  | none => g.sequence

/-- Starts the next alternative. -/
def branch (g : Group) : Group := { g with alternatives := some g.close, items := [] }

def pushSet (g : Group) (s : CharSet) : Group := g.push (.one s)

def pushAtom (g : Group) : Atom → Group
  | .char c => g.pushSet (if g.modifiers.fold then .folded (.single c) else .single c)
  | .set s => g.pushSet s
  | .look l => g.push (.look l)

/-- Repeats the last item. -/
def times? (g : Group) (least : Nat) (most : Option Nat) (marked : Bool) : Option Group :=
  match g.items with
  | some p :: items => some { g with items := some (.times p least most (marked == g.modifiers.swapGreed)) :: items }
  | _ => none

end Group

def isNameChar (c : Char) : Bool :=
  Text.isAlphabetic c || c = '_' || c.isDigit || c = '.' || c = '[' || c = ']'

/-- The name of a group, behind its angle bracket. -/
def readGroupName (cs : List Char) : Option (String × List Char) :=
  let name := cs.takeWhile (· ≠ '>')
  match name, cs.dropWhile (· ≠ '>') with
  | c :: _, _ :: rest =>
    if (Text.isAlphabetic c || c = '_') && name.all isNameChar then some (String.ofList name, rest) else none
  | _, _ => none

/-- A partly read expression: the open groups, innermost first, and the group names in use. -/
structure Reading where
  groups : List Group
  names : List String

namespace Reading

def pushName? (r : Reading) (g : Group) (name : String) : Option Reading :=
  if r.names.contains name then none
  else some ⟨Group.start g.modifiers :: r.groups, name :: r.names⟩

/-- Opens a group behind its parenthesis, or sets flags. -/
def openGroup? (r : Reading) (g : Group) (cs : List Char) : Option (Reading × List Char) :=
  match cs with
  | '?' :: 'P' :: '<' :: cs | '?' :: '<' :: cs =>
    (readGroupName cs).bind fun (name, rest) => (r.pushName? g name).map (·, rest)
  | '?' :: cs =>
    let written := cs.takeWhile (fun c => c ≠ ':' && c ≠ ')')
    match g.modifiers.setAll? written, cs.dropWhile (fun c => c ≠ ':' && c ≠ ')') with
    | some m, ':' :: rest => some ({ r with groups := Group.start m :: r.groups }, rest)
    | some m, ')' :: rest =>
      if written.isEmpty then none
      else some ({ r with groups := { g with modifiers := m, items := none :: g.items } :: r.groups.drop 1 }, rest)
    | _, _ => none
  | _ => some ({ r with groups := Group.start g.modifiers :: r.groups }, cs)

end Reading

/-- Reads what is left of an expression. Every round consumes a character. -/
def read : Nat → Reading → List Char → Option Regex
  | 0, _, _ => none
  | fuel + 1, r, cs =>
    match r.groups, cs with
    | [g], [] => some g.close
    | g :: outer, c :: rest =>
      let put (g : Group) (rest : List Char) := read fuel { r with groups := g :: outer } rest
      if isRepetition c then
        match readRepetition (c :: rest) with
        | none => none
        | some (least, most, rest) =>
          let (marked, rest) := match rest with
            | '?' :: rest => (true, rest)
            | _ => (false, rest)
          match g.times? least most marked with
          | some g => put g rest
          | none => none
      else match c with
        | '(' =>
          match r.openGroup? g rest with
          | some (r, rest) => read fuel r rest
          | none => none
        | ')' =>
          match outer with
          | parent :: outer => read fuel { r with groups := parent.push g.close :: outer } rest
          | [] => none
        | '|' => put g.branch rest
        | '[' =>
          let (s, rest) := SetReading.start g.modifiers.fold rest
          match readSet (rest.length + 1) s rest with
          | some (s, rest) => put (g.pushSet s) rest
          | none => none
        | '.' => put (g.pushSet (if g.modifiers.dotAll then .any else .complement (.single '\n'))) rest
        | '^' => put (g.push (.look (if g.modifiers.lines then .lineStart else .textStart))) rest
        | '$' => put (g.push (.look (if g.modifiers.lines then .lineEnd else .textEnd))) rest
        | '\\' =>
          match readEscape rest with
          | some (a, rest) => put (g.pushAtom a) rest
          | none => none
        | _ => put (g.pushAtom (.char c)) rest
    | _, _ => none

/-- Reads a regular expression, with letters matching in either case if `fold` is set. -/
def ofText? (s : String) (fold : Bool) : Option Regex :=
  read (s.length + 1) ⟨[Group.start ⟨fold, false, false, false⟩], []⟩ s.toList

end PathQuery.Regex
