import PathQuery.Proofs.Query.Tokens

namespace PathQuery

/-- A call as it is written: its name, and the texts of its arguments. -/
structure WrittenCall where
  name : String
  arguments : List String
  deriving DecidableEq

/-- A call whose parenthesis is still open. -/
structure OpenCall where
  name : String
  /-- How many brackets are open around its parentheses. -/
  around : Nat
  /-- The arguments before the last comma. -/
  before : List String
  /-- What stands behind the last comma, or behind the parenthesis, last character first. -/
  text : List Char

namespace OpenCall

/-- Behind one more character. -/
def hear (c : Char) (o : OpenCall) : OpenCall := { o with text := c :: o.text }

/-- The argument that is being written. -/
def last (o : OpenCall) : String := String.ofList o.text.reverse

/-- Behind a comma. -/
def next (o : OpenCall) : OpenCall := { o with before := o.before ++ [o.last], text := [] }

/-- Behind the closing parenthesis. Between parentheses with only blanks there is no argument. -/
def close (o : OpenCall) : WrittenCall :=
  ⟨o.name, if o.before.isEmpty && o.text.all Text.isSpace then [] else o.before ++ [o.last]⟩

end OpenCall

/-- What has been read of the calls of a text. -/
structure CallScan where
  lexing : Lexing
  /-- The latest token, last character first. -/
  word : List Char
  /-- The calls that are open, innermost first. -/
  opened : List OpenCall
  /-- The calls that are closed, in the order of their closing parentheses. -/
  closed : List WrittenCall

namespace CallScan

def start : CallScan := ⟨.start, [], [], []⟩

/-- Behind the first character of a token: a parenthesis that opens a call, a comma or a parenthesis that belongs to
the innermost one, or any other. -/
def first (σ : CallScan) (c : Char) : CallScan :=
  let lexing := σ.lexing.read c
  if c = '(' && σ.lexing.due = .suffix then
    ⟨lexing, [c], ⟨String.ofList σ.word.reverse, σ.lexing.brackets.length, [], []⟩ :: σ.opened.map (.hear c), σ.closed⟩
  else match σ.opened with
    | [] => ⟨lexing, [c], [], σ.closed⟩
    | o :: others =>
      if c = ',' && lexing.brackets.length = o.around + 1 then ⟨lexing, [c], o.next :: others.map (.hear c), σ.closed⟩
      else if c = ')' && lexing.brackets.length = o.around then
        ⟨lexing, [c], others.map (.hear c), σ.closed ++ [o.close]⟩
      else ⟨lexing, [c], (o :: others).map (.hear c), σ.closed⟩

/-- Behind a character. -/
def read (σ : CallScan) (c : Char) : CallScan :=
  if σ.lexing.token.continues c then ⟨σ.lexing.read c, c :: σ.word, σ.opened.map (.hear c), σ.closed⟩
  else if Text.isSpace c then ⟨σ.lexing.read c, σ.word, σ.opened.map (.hear c), σ.closed⟩
  else σ.first c

end CallScan

/-- The calls of a text, in the order of their closing parentheses. -/
def writtenCalls (text : String) : List WrittenCall := (text.toList.foldl CallScan.read .start).closed

example : writtenCalls "$.a[?max(@.b[f( ), '),('], (1), g (h(@), \"]\")) > 1]" =
    [⟨"f", []⟩, ⟨"h", ["@"]⟩, ⟨"g", ["h(@)", " \"]\""]⟩,
      ⟨"max", ["@.b[f( ), '),(']", " (1)", " g (h(@), \"]\")"]⟩] := by
  decide +kernel

end PathQuery
