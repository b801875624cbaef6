import PathQuery.Json.Number
import PathQuery.Text.Blank
import PathQuery.Text.Escape

namespace PathQuery.Json

inductive Lexeme
  | openArray
  | closeArray
  | openObject
  | closeObject
  | comma
  | colon
  | scalar (v : Value)

/-- What the lexer is inside of: nothing, a number or keyword, or a string, perhaps in an escape. What has been
read comes last character first. -/
inductive Scan
  | between
  | word (read : List Char)
  | text (read : List Char)
  | escape (read : List Char) (e : Text.Escape)

def punctuation? : Char → Option Lexeme
  | '[' => some .openArray
  | ']' => some .closeArray
  | '{' => some .openObject
  | '}' => some .closeObject
  | ',' => some .comma
  | ':' => some .colon
  | _ => none

/-- The value of a keyword or number. -/
def wordValue? (cs : List Char) : Option Value :=
  if cs = ['n', 'u', 'l', 'l'] then some .null
  else if cs = ['t', 'r', 'u', 'e'] then some (.bool true)
  else if cs = ['f', 'a', 'l', 's', 'e'] then some (.bool false)
  else (Number.ofText? cs).map .number

/-- The lexemes of a text, none if it has a part that is no lexeme. Control characters must be escaped in strings. -/
def lexemes : Scan → List Char → Option (List Lexeme)
  | .between, [] => some []
  | .between, c :: cs =>
    if Text.isSpace c then lexemes .between cs
    else if c = '"' then lexemes (.text []) cs
    else match punctuation? c with
      | some l => (lexemes .between cs).map (l :: ·)
      | none => lexemes (.word [c]) cs
  | .word read, [] => (wordValue? read.reverse).map ([.scalar ·])
  | .word read, c :: cs =>
    if Text.isSpace c then
      (wordValue? read.reverse).bind fun v => (lexemes .between cs).map (.scalar v :: ·)
    else if c = '"' then
      (wordValue? read.reverse).bind fun v => (lexemes (.text []) cs).map (.scalar v :: ·)
    else match punctuation? c with
      | some l => (wordValue? read.reverse).bind fun v => (lexemes .between cs).map (.scalar v :: l :: ·)
      | none => lexemes (.word (c :: read)) cs
  | .text _, [] => none
  | .text read, c :: cs =>
    if c = '"' then (lexemes .between cs).map (.scalar (.string (String.ofList read.reverse)) :: ·)
    else if c = '\\' then lexemes (.escape read .backslash) cs
    else if c.toNat < 0x20 then none
    else lexemes (.text (c :: read)) cs
  | .escape _ _, [] => none
  | .escape read e, c :: cs =>
    match e.next Text.shortEscape? c with
    | .more e => lexemes (.escape read e) cs
    | .char d => lexemes (.text (d :: read)) cs
    | .unknown | .stray | .lone => none

end PathQuery.Json
