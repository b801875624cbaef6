namespace PathQuery.Text

/-- The value of a hexadecimal digit of either case. -/
def hexValue? (c : Char) : Option Nat :=
  if c.isDigit then some (c.toNat - '0'.toNat)
  else if 'a' ≤ c && c ≤ 'f' then some (c.toNat - 'a'.toNat + 10)
  else if 'A' ≤ c && c ≤ 'F' then some (c.toNat - 'A'.toNat + 10)
  else none

def isHighSurrogate (n : Nat) : Bool := 0xD800 ≤ n && n < 0xDC00

def isLowSurrogate (n : Nat) : Bool := 0xDC00 ≤ n && n < 0xE000

/-- The code point of a surrogate pair. -/
def joinSurrogates (high low : Nat) : Nat := 0x10000 + (high - 0xD800) * 0x400 + (low - 0xDC00)

/-- The short escapes that JSON strings and quoted names have in common. -/
def shortEscape? : Char → Option Char
  | '"' => some '"'
  | '\\' => some '\\'
  | '/' => some '/'
  | 'b' => some '\x08'
  | 'f' => some '\x0c'
  | 'n' => some '\n'
  | 'r' => some '\r'
  | 't' => some '\t'
  | _ => none

/-- The short escapes of quoted names, where either quote may be escaped. -/
def nameEscape? (c : Char) : Option Char :=
  if c = '\'' then some c else shortEscape? c

/-- How far an escape has been read: its backslash, some digits of its only or first unit, or, after a high
surrogate, a part of the second unit. -/
inductive Escape
  | backslash
  | unit (digits code : Nat)
  | pair (high : Nat)
  | pairBackslash (high : Nat)
  | pairUnit (high digits code : Nat)
  deriving DecidableEq

/-- What a character does to an escape. -/
inductive Escape.Outcome
  | more (e : Escape)
  | char (c : Char)
  /-- No escape is written with this character. -/
  | unknown
  /-- The character cannot stand at this place of a `\u` escape. -/
  | stray
  /-- The last digit completes a surrogate that has no partner. -/
  | lone

namespace Escape

/-- Reads one more character; `short` gives the escapes of one character. -/
def next (short : Char → Option Char) (c : Char) : Escape → Outcome
  | backslash =>
    if c = 'u' then .more (unit 0 0)
    else match short c with
      | some d => .char d
      | none => .unknown
  | unit digits code =>
    match hexValue? c with
    | none => .stray
    | some d =>
      let code := code * 16 + d
      if digits < 3 then .more (unit (digits + 1) code)
      else if isHighSurrogate code then .more (pair code)
      else if isLowSurrogate code then .lone
      else .char (Char.ofNat code)
  | pair high => if c = '\\' then .more (pairBackslash high) else .stray
  | pairBackslash high => if c = 'u' then .more (pairUnit high 0 0) else .stray
  | pairUnit high digits code =>
    match hexValue? c with
    | none => .stray
    | some d =>
      let code := code * 16 + d
      if digits < 3 then .more (pairUnit high (digits + 1) code)
      else if isLowSurrogate code then .char (Char.ofNat (joinSurrogates high code))
      else .lone

end Escape

/-- The last hexadecimal digit of a number. -/
def hexDigit (n : Nat) : Char := Nat.digitChar (n % 16)

/-- The escape `\u00xx` of a control character. -/
def controlEscape (c : Char) : List Char :=
  ['\\', 'u', '0', '0', hexDigit (c.toNat / 16), hexDigit c.toNat]

/-- Writes a character inside `quote`: the quote and the backslash are escaped, and so are the control characters,
by their short escape if they have one. -/
def escapeChar (quote c : Char) : List Char :=
  if c = quote || c = '\\' then ['\\', c]
  else if c = '\x08' then ['\\', 'b']
  else if c = '\x0c' then ['\\', 'f']
  else if c = '\n' then ['\\', 'n']
  else if c = '\r' then ['\\', 'r']
  else if c = '\t' then ['\\', 't']
  else if c.toNat < 0x20 then controlEscape c
  else [c]

def escape (quote : Char) (cs : List Char) : List Char := cs.flatMap (escapeChar quote)

/-- The text in quotes, escaped. -/
def quoted (quote : Char) (s : String) : String :=
  String.ofList (quote :: escape quote s.toList ++ [quote])

end PathQuery.Text
