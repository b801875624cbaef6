import PathQuery.Query.Machine

namespace PathQuery.Machine

/-- Before a query: `$`, or the name of a function. -/
def readStart (m : Machine) (below : List Mode) : List Char → Except SyntaxError Machine
  | [] => m.fail .unexpectedEnd
  | c :: rest =>
    if Text.isSpace c then .ok (m.past c rest)
    else if c = '$' then .ok ((m.past c rest).emitRoot.goto (.path :: below))
    else if isNameStart c then .ok (m.goto (.bareName .query [] :: below))
    else m.fail .expectedQueryStart

/-- A name without quotes has ended before the next character. -/
def endName (m : Machine) (below : List Mode) (use : BareUse) (read : List Char) : Machine :=
  let name := String.ofList read.reverse
  match use with
  | .member => (m.emitSelector (.member name)).goto below
  | .query => m.goto (.queryCall name :: below)
  | .operand => m.goto (.operandName name :: below)

def readBareName (m : Machine) (below : List Mode) (use : BareUse) (read : List Char) :
    List Char → Except SyntaxError Machine
  | [] => .ok (m.endName below use read)
  | c :: rest =>
    if isDelimiter c then .ok (m.endName below use read)
    else .ok ((m.past c rest).goto (.bareName use (c :: read) :: below))

def readQueryCall (m : Machine) (env : Env) (below : List Mode) (name : String) :
    List Char → Except SyntaxError Machine
  | [] => m.fail .expectedQueryStart
  | c :: rest =>
    if Text.isSpace c then .ok (m.past c rest)
    else if c = '(' then (m.openCall env name c rest).map (·.goto (.firstArgument :: .arguments :: .path :: below))
    else m.fail .expectedQueryStart

def readPath (m : Machine) (below : List Mode) : List Char → Except SyntaxError Machine
  | [] => m.fail .unexpectedEnd
  | c :: rest =>
    if Text.isSpace c then .ok (m.past c rest)
    else if c = '.' then .ok ((m.past c rest).goto (.dot :: .path :: below))
    else if c = '[' then .ok ((m.past c rest).openList.goto (.element :: .elementEnd :: .path :: below))
    else if c = ',' || c = ']' then .ok (m.goto below)
    else m.fail .expectedSeparator

def readDot (m : Machine) (below : List Mode) : List Char → Except SyntaxError Machine
  | [] => .ok (m.goto (.dotName :: below))
  | c :: rest =>
    if c = '.' then .ok (((m.past c rest).emitSelector .descend).goto (.descent :: below))
    else .ok (m.goto (.dotName :: below))

def readDescent (m : Machine) (below : List Mode) : List Char → Except SyntaxError Machine
  | [] => m.fail .unexpectedEnd
  | c :: rest =>
    if c = '[' then .ok ((m.past c rest).openList.goto (.element :: .elementEnd :: below))
    else .ok (m.goto (.dotName :: below))

def readDotName (m : Machine) (below : List Mode) : List Char → Except SyntaxError Machine
  | [] => m.fail .unexpectedEnd
  | c :: rest =>
    if Text.isSpace c then .ok (m.past c rest)
    else if c = '*' then .ok (((m.past c rest).emitSelector .wildcard).goto below)
    else if c = '\'' || c = '"' then .ok ((m.past c rest).goto (.quoted c .member [] :: below))
    else if isDelimiter c then m.fail .expectedName
    else .ok (m.goto (.bareName .member [] :: below))

/-- A text in quotes has ended with its quote. -/
def endQuoted (m : Machine) (below : List Mode) (use : QuotedUse) (read : List Char) : Machine :=
  let text := String.ofList read.reverse
  match use with
  | .member => (m.emitSelector (.member text)).goto below
  | .literal => (m.emitLiteral (.string text)).goto below

def readQuoted (m : Machine) (below : List Mode) (quote : Char) (use : QuotedUse) (read : List Char) :
    List Char → Except SyntaxError Machine
  | [] => m.fail .unexpectedEnd
  | c :: rest =>
    if c = quote then .ok ((m.past c rest).endQuoted below use read)
    else if c = '\\' then .ok ((m.past c rest).goto (.escape quote use read .backslash :: below))
    else .ok ((m.past c rest).goto (.quoted quote use (c :: read) :: below))

/-- A first unit without partner is a fault behind its last digit, a second unit that is no partner at its last
digit. -/
def readEscape (m : Machine) (below : List Mode) (quote : Char) (use : QuotedUse) (read : List Char)
    (e : Text.Escape) : List Char → Except SyntaxError Machine
  | [] => m.fail (if e = .backslash then .unexpectedEnd else .badCodePoint)
  | c :: rest =>
    match e.next Text.nameEscape? c with
    | .more e => .ok ((m.past c rest).goto (.escape quote use read e :: below))
    | .char d => .ok ((m.past c rest).goto (.quoted quote use (d :: read) :: below))
    | .unknown => m.fail .unknownEscape
    | .stray => m.fail .badCodePoint
    | .lone =>
      match e with
      | .unit _ _ => (m.past c rest).fail .badCodePoint
      | _ => m.fail .badCodePoint

def readElement (m : Machine) (below : List Mode) : List Char → Except SyntaxError Machine
  | [] => m.fail .unexpectedEnd
  | c :: rest =>
    if Text.isSpace c then .ok (m.past c rest)
    else if c = '*' then .ok (((m.past c rest).emitSelector .wildcard).goto (.path :: below))
    else if c = '\'' || c = '"' then .ok ((m.past c rest).goto (.quoted c .member [] :: .path :: below))
    else if c = '-' || c.isDigit then .ok (m.goto (.integer .first :: below))
    else if c = ':' then .ok (m.goto (.boundEnd .first [] :: below))
    else if c = '?' then
      .ok (((m.past c rest).emit (·.openScope .filter)).goto (.operand :: .operator :: .filterEnd :: below))
    else if c = '(' then
      .ok ((m.emit (·.openScope .computed)).goto (.operand :: .operator :: .computedEnd :: below))
    else if c = '$' then .ok ((m.past c rest).emitRoot.goto (.path :: below))
    else if c = '@' then .ok ((m.past c rest).emitCurrent.goto (.path :: below))
    else if isDelimiter c then m.fail .expectedName
    else .ok (m.goto (.bareName .member [] :: .path :: below))

def readElementEnd (m : Machine) (below : List Mode) : List Char → Except SyntaxError Machine
  | [] => m.fail .unexpectedEnd
  | c :: rest =>
    if Text.isSpace c then .ok (m.past c rest)
    else if c = ',' then
      .ok (((m.past c rest).emit (·.pushMark .separator)).goto (.element :: .elementEnd :: below))
    else if c = ']' then ((m.past c rest).attempt Assembly.closeUnion).map (·.goto below)
    else m.fail .expectedClosingBracket

def readInteger (m : Machine) (below : List Mode) (bound : Bound) : List Char → Except SyntaxError Machine
  | [] => .ok (m.goto (.digits bound [] :: below))
  | c :: rest =>
    if Text.isSpace c then .ok (m.past c rest)
    else if c = '-' then .ok ((m.past c rest).goto (.digits bound [c] :: below))
    else .ok (m.goto (.digits bound [] :: below))

def readDigits (m : Machine) (below : List Mode) (bound : Bound) (read : List Char) :
    List Char → Except SyntaxError Machine
  | [] => .ok (m.goto (.boundEnd bound read :: below))
  | c :: rest =>
    if c.isDigit then .ok ((m.past c rest).goto (.digits bound (c :: read) :: below))
    else .ok (m.goto (.boundEnd bound read :: below))

/-- The integer that has been read, if there is one. It must fit into 64 bits. -/
def readBound (m : Machine) (read : List Char) : Except SyntaxError (Option Int) :=
  if read.isEmpty then .ok none
  else match (readInt? read.reverse).bind int64? with
    | some i => .ok (some i)
    | none => m.fail .badNumber

/-- The index or slice that ends with this integer. -/
def boundSelector (m : Machine) (i : Option Int) : Bound → Except SyntaxError Selector
  | .first =>
    match i with
    | some i => .ok (.index i)
    | none => m.fail .badNumber
  | .stop start => .ok (.slice ⟨start, i, 1⟩)
  | .step start stop => if i = some 0 then m.fail .zeroStep else .ok (.slice ⟨start, stop, i.getD 1⟩)

def readBoundEnd (m : Machine) (below : List Mode) (bound : Bound) (read : List Char) :
    List Char → Except SyntaxError Machine
  | [] => m.fail .unexpectedEnd
  | c :: rest =>
    if Text.isSpace c then .ok (m.past c rest)
    else if c = ']' || c = ',' then
      (m.readBound read).bind fun i => (m.boundSelector i bound).map fun s => (m.emitSelector s).goto below
    else if c = ':' then
      match bound with
      | .first => (m.readBound read).map fun i => (m.past c rest).goto (.integer (.stop i) :: below)
      | .stop start => (m.readBound read).map fun i => (m.past c rest).goto (.integer (.step start i) :: below)
      | .step _ _ => m.fail .expectedClosingBracket
    else m.fail .expectedClosingBracket

/-- Behind the expression of a filter or computed key, which `close` completes. -/
def readExpressionEnd (m : Machine) (below : List Mode) (close : Assembly → Except SyntaxFault Assembly) :
    List Char → Except SyntaxError Machine
  | [] => m.fail .unexpectedEnd
  | c :: rest =>
    if Text.isSpace c then .ok (m.past c rest)
    else if c = ']' || c = ',' then (m.attempt close).map (·.goto below)
    else m.fail .expectedClosingBracket

def readOperand (m : Machine) (below : List Mode) : List Char → Except SyntaxError Machine
  | [] => m.fail .unexpectedEnd
  | c :: rest =>
    if Text.isSpace c then .ok (m.past c rest)
    else if c = '$' then .ok ((m.past c rest).emitRoot.goto below)
    else if c = '@' then .ok ((m.past c rest).emitCurrent.goto below)
    else if c = '(' then .ok ((m.past c rest).emit (·.openGroup))
    else if c = '\'' || c = '"' then .ok ((m.past c rest).goto (.quoted c .literal [] :: below))
    else if c = '!' then .ok ((m.past c rest).emitOperator (.unary .not))
    else if c = '-' then .ok ((m.past c rest).emitOperator (.unary .negate))
    else if c.isDigit then .ok (m.goto (.number [] :: below))
    else if c = '[' || c = '\x7b' then .ok (m.goto (.json 0 [] :: below))
    else if isNameStart c then .ok (m.goto (.bareName .operand [] :: below))
    else m.fail .malformed

/-- What the first character of a binary operator, or of a regular expression match, stands for. -/
inductive OperatorStart
  | whole (op : BinaryOp)
  /-- The rest of the operator is read in modes of its own. -/
  | half (modes : List Mode)

def operatorStart? : Char → Option OperatorStart
  | '+' => some (.whole .add)
  | '-' => some (.whole .sub)
  | '*' => some (.whole .mul)
  | '/' => some (.whole .div)
  | '|' => some (.half [.or, .operand])
  | '&' => some (.half [.and, .operand])
  | '<' => some (.half [.less])
  | '>' => some (.half [.greater])
  | '=' => some (.half [.equal])
  | '!' => some (.half [.notEqual])
  | _ => none

def readOperator (m : Machine) (below : List Mode) : List Char → Except SyntaxError Machine
  | [] => m.fail .unexpectedEnd
  | c :: rest =>
    if Text.isSpace c then .ok (m.past c rest)
    else if c = '.' then .ok ((m.past c rest).goto (.dot :: .operator :: below))
    else if c = '[' then .ok ((m.past c rest).openList.goto (.element :: .elementEnd :: .operator :: below))
    else if c = ')' then
      if m.assembly.hasOpenGroup then (m.past c rest).attempt Assembly.closeGroup
      else if below.head? = some .arguments then .ok (m.goto below)
      else m.fail .unbalancedParenthesis
    else if c = ',' || c = ']' then .ok (m.goto below)
    else match operatorStart? c with
      | some (.whole op) => .ok (((m.past c rest).emitBinary op).goto (.operand :: .operator :: below))
      | some (.half modes) => .ok ((m.past c rest).goto (modes ++ .operator :: below))
      | none => m.fail .expectedSeparator

/-- A number has ended before the next character. -/
def endNumber (m : Machine) (env : Env) (below : List Mode) (read : List Char) : Except SyntaxError Machine :=
  match env.number? (String.ofList read.reverse) with
  | some n => .ok ((m.emitLiteral (.number n)).goto below)
  | none => m.fail .badNumber

/-- Whether a character goes on with a number; a sign does so only behind the mark of an exponent. -/
def continuesNumber (read : List Char) (c : Char) : Bool :=
  c.isDigit || c = '.' || c = 'e' || c = 'E' ||
    ((c = '+' || c = '-') && (read.head? = some 'e' || read.head? = some 'E'))

def readNumber (m : Machine) (env : Env) (below : List Mode) (read : List Char) : List Char → Except SyntaxError Machine
  | [] => m.endNumber env below read
  | c :: rest =>
    if continuesNumber read c then .ok ((m.past c rest).goto (.number (c :: read) :: below))
    else m.endNumber env below read

/-- A JSON array or object has ended with its last bracket. -/
def endJson (m : Machine) (env : Env) (below : List Mode) (read : List Char) : Except SyntaxError Machine :=
  match env.json? (String.ofList read.reverse) with
  | some v => .ok ((m.emitLiteral v).goto below)
  | none => m.fail .badLiteral

def readJson (m : Machine) (env : Env) (below : List Mode) (depth : Nat) (read : List Char) :
    List Char → Except SyntaxError Machine
  | [] => m.fail .unexpectedEnd
  | c :: rest =>
    if c = '[' || c = '\x7b' then .ok ((m.past c rest).goto (.json (depth + 1) (c :: read) :: below))
    else if c = ']' || c = '\x7d' then
      if depth ≤ 1 then (m.past c rest).endJson env below (c :: read)
      else .ok ((m.past c rest).goto (.json (depth - 1) (c :: read) :: below))
    else if c = '"' then .ok ((m.past c rest).goto (.jsonString depth (c :: read) :: below))
    else .ok ((m.past c rest).goto (.json depth (c :: read) :: below))

def readJsonString (m : Machine) (below : List Mode) (depth : Nat) (read : List Char) :
    List Char → Except SyntaxError Machine
  | [] => m.fail .unexpectedEnd
  | c :: rest =>
    if c = '\\' then .ok ((m.past c rest).goto (.jsonEscape depth (c :: read) :: below))
    else if c = '"' then .ok ((m.past c rest).goto (.json depth (c :: read) :: below))
    else .ok ((m.past c rest).goto (.jsonString depth (c :: read) :: below))

def readJsonEscape (m : Machine) (below : List Mode) (depth : Nat) (read : List Char) :
    List Char → Except SyntaxError Machine
  | [] => m.fail .unexpectedEnd
  | c :: rest => .ok ((m.past c rest).goto (.jsonString depth (c :: read) :: below))

/-- The value that a name without call stands for. -/
def keyword? (name : String) : Option Value :=
  if name = "true" then some (.bool true)
  else if name = "false" then some (.bool false)
  else if name = "null" then some .null
  else none

def endOperandName (m : Machine) (below : List Mode) (name : String) : Except SyntaxError Machine :=
  match keyword? name with
  | some v => .ok ((m.emitLiteral v).goto below)
  | none => m.fail .expectedNode

def readOperandName (m : Machine) (env : Env) (below : List Mode) (name : String) :
    List Char → Except SyntaxError Machine
  | [] => m.endOperandName below name
  | c :: rest =>
    if Text.isSpace c then .ok (m.past c rest)
    else if c = '(' then (m.openCall env name c rest).map (·.goto (.firstArgument :: .arguments :: below))
    else m.endOperandName below name

def readArguments (m : Machine) (below : List Mode) : List Char → Except SyntaxError Machine
  | [] => m.fail .unexpectedEnd
  | c :: rest =>
    if Text.isSpace c then .ok (m.past c rest)
    else if c = ',' then
      ((m.past c rest).attempt Assembly.closeArgument).map (·.goto (.operand :: .operator :: .arguments :: below))
    else if c = ')' then ((m.past c rest).attempt Assembly.closeCall).map (·.goto below)
    else m.fail .unbalancedParenthesis

def readFirstArgument (m : Machine) (below : List Mode) : List Char → Except SyntaxError Machine
  | [] => m.fail .unexpectedEnd
  | c :: rest =>
    if Text.isSpace c then .ok (m.past c rest)
    else if c = ')' then .ok (m.goto below)
    else .ok (m.goto (.operand :: .operator :: below))

/-- Behind `<` or `>`, which a `=` may follow. -/
def readInequality (m : Machine) (below : List Mode) (strict inclusive : BinaryOp) :
    List Char → Except SyntaxError Machine
  | [] => .ok ((m.emitBinary strict).goto (.operand :: below))
  | c :: rest =>
    if c = '=' then .ok (((m.past c rest).emitBinary inclusive).goto (.operand :: below))
    else .ok ((m.emitBinary strict).goto (.operand :: below))

def readEqual (m : Machine) (below : List Mode) : List Char → Except SyntaxError Machine
  | [] => m.fail .unexpectedEnd
  | c :: rest =>
    if c = '=' then .ok (((m.past c rest).emitBinary .eq).goto (.operand :: below))
    else if c = '~' then .ok ((m.past c rest).goto (.patternStart :: below))
    else m.fail .expectedComparator

def readNotEqual (m : Machine) (below : List Mode) : List Char → Except SyntaxError Machine
  | [] => m.fail .unexpectedEnd
  | c :: rest =>
    if c = '=' then .ok (((m.past c rest).emitBinary .ne).goto (.operand :: below))
    else m.fail .expectedComparator

/-- Behind the first half of `||` or `&&`. -/
def readHalf (m : Machine) (below : List Mode) (half : Char) (op : BinaryOp) (fault : SyntaxFault) :
    List Char → Except SyntaxError Machine
  | [] => m.fail .unexpectedEnd
  | c :: rest => if c = half then .ok (((m.past c rest).emitBinary op).goto below) else m.fail fault

def readPatternStart (m : Machine) (below : List Mode) : List Char → Except SyntaxError Machine
  | [] => m.fail .unexpectedEnd
  | c :: rest =>
    if Text.isSpace c then .ok (m.past c rest)
    else if c = '/' then .ok ((m.past c rest).goto (.pattern [] :: below))
    else m.fail .expectedSlash

def readPattern (m : Machine) (below : List Mode) (read : List Char) : List Char → Except SyntaxError Machine
  | [] => m.fail .unexpectedEnd
  | c :: rest =>
    if c = '\\' then .ok ((m.past c rest).goto (.patternEscape read :: below))
    else if c = '/' then .ok ((m.past c rest).goto (.patternEnd read :: below))
    else .ok ((m.past c rest).goto (.pattern (c :: read) :: below))

/-- An escaped slash is a slash of the expression; any other escape is left to it. -/
def readPatternEscape (m : Machine) (below : List Mode) (read : List Char) : List Char → Except SyntaxError Machine
  | [] => m.fail .unexpectedEnd
  | c :: rest =>
    .ok ((m.past c rest).goto (.pattern (if c = '/' then c :: read else c :: '\\' :: read) :: below))

def endPattern (m : Machine) (env : Env) (below : List Mode) (read : List Char) (fold : Bool) :
    Except SyntaxError Machine :=
  match env.pattern (String.ofList read.reverse) fold with
  | .ok p => .ok ((m.emitOperator (.unary (.likes p))).goto below)
  | .error _ => m.fail .badPattern

def readPatternEnd (m : Machine) (env : Env) (below : List Mode) (read : List Char) :
    List Char → Except SyntaxError Machine
  | [] => m.endPattern env below read false
  | c :: rest =>
    if c = 'i' then (m.past c rest).endPattern env below read true else m.endPattern env below read false

/-- One step in the innermost mode. -/
def stepIn (m : Machine) (env : Env) (below : List Mode) : Mode → Except SyntaxError Machine
  | .start => m.readStart below m.rest
  | .bareName use read => m.readBareName below use read m.rest
  | .queryCall name => m.readQueryCall env below name m.rest
  | .path => m.readPath below m.rest
  | .dot => m.readDot below m.rest
  | .descent => m.readDescent below m.rest
  | .dotName => m.readDotName below m.rest
  | .quoted quote use read => m.readQuoted below quote use read m.rest
  | .escape quote use read e => m.readEscape below quote use read e m.rest
  | .element => m.readElement below m.rest
  | .elementEnd => m.readElementEnd below m.rest
  | .integer bound => m.readInteger below bound m.rest
  | .digits bound read => m.readDigits below bound read m.rest
  | .boundEnd bound read => m.readBoundEnd below bound read m.rest
  | .filterEnd => m.readExpressionEnd below Assembly.closeFilter m.rest
  | .computedEnd => m.readExpressionEnd below Assembly.closeComputed m.rest
  | .operand => m.readOperand below m.rest
  | .operator => m.readOperator below m.rest
  | .number read => m.readNumber env below read m.rest
  | .json depth read => m.readJson env below depth read m.rest
  | .jsonString depth read => m.readJsonString below depth read m.rest
  | .jsonEscape depth read => m.readJsonEscape below depth read m.rest
  | .operandName name => m.readOperandName env below name m.rest
  | .arguments => m.readArguments below m.rest
  | .firstArgument => m.readFirstArgument below m.rest
  | .less => m.readInequality below .lt .le m.rest
  | .greater => m.readInequality below .gt .ge m.rest
  | .equal => m.readEqual below m.rest
  | .notEqual => m.readNotEqual below m.rest
  | .or => m.readHalf below '|' .or .expectedOr m.rest
  | .and => m.readHalf below '&' .and .expectedAnd m.rest
  | .patternStart => m.readPatternStart below m.rest
  | .pattern read => m.readPattern below read m.rest
  | .patternEscape read => m.readPatternEscape below read m.rest
  | .patternEnd read => m.readPatternEnd env below read m.rest

def step (m : Machine) (env : Env) : Except SyntaxError Machine :=
  match m.modes with
  | [] => m.fail .malformed
  | mode :: below => m.stepIn env below mode

end PathQuery.Machine
