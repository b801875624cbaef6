import PathQuery.Query.Mode

namespace PathQuery

/-- A bracket that is open. -/
inductive Bracket
  | square
  | round
  deriving DecidableEq

/-- What the next token can be. -/
inductive Due
  /-- An operator, a comma, a bracket, or more of a path. -/
  | suffix
  /-- A member, behind one dot or two. -/
  | name
  | element
  /-- An integer behind a colon, or what follows where it is missing. -/
  | bound
  | operand
  /-- A regular expression. -/
  | pattern
  deriving DecidableEq

/-- The token before a character, if more of it may follow. -/
inductive PartToken
  | none
  | dot
  | name
  | quoted (quote : Char)
  | escape (quote : Char)
  | integer
  /-- A number, perhaps up to the mark of its exponent. -/
  | number (exponent : Bool)
  | json (depth : Nat)
  | jsonString (depth : Nat)
  | jsonEscape (depth : Nat)
  | operator (first : Char)
  | pattern
  | patternEscape
  /-- A regular expression up to its second slash. -/
  | flag
  deriving DecidableEq

/-- The operators of two characters. -/
def longOperators : List (Char × Char) :=
  [('|', '|'), ('&', '&'), ('=', '='), ('!', '='), ('<', '='), ('>', '='), ('=', '~')]

/-- Whether a character is more of the token before it. -/
def PartToken.continues : PartToken → Char → Bool
  | none, _ => false
  | dot, c => c = '.'
  | name, c => !isDelimiter c
  | integer, c => c.isDigit
  | number exponent, c => c.isDigit || c = '.' || c = 'e' || c = 'E' || ((c = '+' || c = '-') && exponent)
  | operator first, c => longOperators.contains (first, c)
  | flag, c => c = 'i'
  | _, _ => true

theorem PartToken.continues_name (c : Char) : name.continues c = !isDelimiter c := rfl

/-- What has been read of a text: the token before the next character, what can stand there, and the brackets that are
open, innermost first. -/
structure Lexing where
  token : PartToken
  due : Due
  brackets : List Bracket
  deriving DecidableEq

namespace Lexing

def start : Lexing := ⟨.none, .operand, []⟩

/-- Behind more of a token. -/
def more (σ : Lexing) (c : Char) : Lexing :=
  match σ.token with
  | .quoted quote => { σ with token := if c = quote then .none else if c = '\\' then .escape quote else .quoted quote }
  | .escape quote => { σ with token := .quoted quote }
  | .number _ => { σ with token := .number (c = 'e' || c = 'E') }
  | .json depth =>
    if c = '[' || c = '\x7b' then { σ with token := .json (depth + 1) }
    else if c = ']' || c = '\x7d' then { σ with token := if depth ≤ 1 then .none else .json (depth - 1) }
    else if c = '"' then { σ with token := .jsonString depth }
    else σ
  | .jsonString depth =>
    { σ with token := if c = '\\' then .jsonEscape depth else if c = '"' then .json depth else .jsonString depth }
  | .jsonEscape depth => { σ with token := .jsonString depth }
  | .operator _ => { σ with token := .none, due := if c = '~' then .pattern else .operand }
  | .pattern => { σ with token := if c = '\\' then .patternEscape else if c = '/' then .flag else .pattern }
  | .patternEscape => { σ with token := .pattern }
  | .name | .integer => σ
  | .none | .dot | .flag => { σ with token := .none }

/-- Behind the first character of an operator, a comma, a bracket or more of a path. -/
def firstOfSuffix (bs : List Bracket) (c : Char) : Lexing :=
  if c = '.' then ⟨.dot, .name, bs⟩
  else if c = '[' then ⟨.none, .element, .square :: bs⟩
  else if c = '(' then ⟨.none, .operand, .round :: bs⟩
  else if c = ']' || c = ')' then ⟨.none, .suffix, bs.tail⟩
  else if c = ',' then ⟨.none, if bs.head? = some .square then .element else .operand, bs⟩
  else if c = ':' then ⟨.none, .bound, bs⟩
  else if longOperators.any (·.1 = c) then ⟨.operator c, .operand, bs⟩
  else ⟨.none, .operand, bs⟩

/-- Behind the first character of the token that is due. -/
def first (bs : List Bracket) (c : Char) : Due → Lexing
  | .suffix => firstOfSuffix bs c
  | .name =>
    if c = '[' then ⟨.none, .element, .square :: bs⟩
    else if c = '*' then ⟨.none, .suffix, bs⟩
    else if c = '\'' || c = '"' then ⟨.quoted c, .suffix, bs⟩
    else ⟨.name, .suffix, bs⟩
  | .element =>
    if c = '-' || c.isDigit then ⟨.integer, .suffix, bs⟩
    else if c = '*' || c = '$' || c = '@' then ⟨.none, .suffix, bs⟩
    else if c = '\'' || c = '"' then ⟨.quoted c, .suffix, bs⟩
    else if c = ':' then ⟨.none, .bound, bs⟩
    else if c = '?' then ⟨.none, .operand, bs⟩
    else if c = '(' then ⟨.none, .operand, .round :: bs⟩
    else ⟨.name, .suffix, bs⟩
  | .bound => if c = '-' || c.isDigit then ⟨.integer, .suffix, bs⟩ else firstOfSuffix bs c
  | .operand =>
    if c.isDigit then ⟨.number false, .suffix, bs⟩
    else if c = '$' || c = '@' then ⟨.none, .suffix, bs⟩
    else if c = '(' then ⟨.none, .operand, .round :: bs⟩
    else if c = ')' then ⟨.none, .suffix, bs.tail⟩
    else if c = '\'' || c = '"' then ⟨.quoted c, .suffix, bs⟩
    else if c = '!' || c = '-' then ⟨.none, .operand, bs⟩
    else if c = '[' || c = '\x7b' then ⟨.json 1, .suffix, bs⟩
    else ⟨.name, .suffix, bs⟩
  | .pattern => ⟨.pattern, .suffix, bs⟩

/-- Behind a token. -/
def rested (σ : Lexing) : Lexing := { σ with token := .none }

/-- Behind a character. -/
def read (σ : Lexing) (c : Char) : Lexing :=
  if σ.token.continues c then σ.more c
  else if Text.isSpace c then σ.rested
  else first σ.brackets c σ.due

/-- Whether the token before a text goes on with it. -/
def goesOn (σ : Lexing) (text : List Char) : Bool := text.head?.any σ.token.continues

/-- Puts a character before the first of some tokens. -/
def glue (c : Char) : List (List Char) → List (List Char)
  | [] => [[c]]
  | token :: tokens => (c :: token) :: tokens

/-- The tokens of a text; the first is the rest of the one before it if this goes on. -/
def tokens : Lexing → List Char → List (List Char)
  | _, [] => []
  | σ, c :: text =>
    if !σ.token.continues c && Text.isSpace c then tokens (σ.read c) text
    else if (σ.read c).goesOn text then glue c (tokens (σ.read c) text)
    else [c] :: tokens (σ.read c) text

example : (start.tokens "$..a[?(@.b <= -1.5e+3 && 'p q' =~ /x\\/ y/i), -1:2].*".toList).map String.ofList =
    ["$", "..", "a", "[", "?", "(", "@", ".", "b", "<=", "-", "1.5e+3", "&&", "'p q'", "=~", "/x\\/ y/i", ")", ",",
      "-1", ":", "2", "]", ".", "*"] := by
  decide +kernel

variable {σ : Lexing} {c : Char} {text : List Char}

theorem read_more (h : σ.token.continues c = true) : σ.read c = σ.more c := if_pos h

variable (bs : List Bracket)

/-- Between two tokens a character that is no blank starts a token. -/
theorem read_first (hc : ¬Text.isSpace c = true) (due : Due) : read ⟨.none, due, bs⟩ c = first bs c due := if_neg hc

/-- A name is read from its first character on, as an integer is. -/
theorem read_name (hc : isDelimiter c = false) : read ⟨.name, .suffix, bs⟩ c = ⟨.name, .suffix, bs⟩ :=
  read_more (σ := ⟨.name, .suffix, bs⟩) (congrArg (!·) hc)

theorem read_integer (hc : c.isDigit = true) : read ⟨.integer, .suffix, bs⟩ c = ⟨.integer, .suffix, bs⟩ :=
  read_more (σ := ⟨.integer, .suffix, bs⟩) hc

theorem read_quoted (quote : Char) : read ⟨.quoted quote, .suffix, bs⟩ c =
    ⟨if c = quote then .none else if c = '\\' then .escape quote else .quoted quote, .suffix, bs⟩ := rfl

theorem read_json (depth : Nat) : read ⟨.json depth, .suffix, bs⟩ c =
    if c = '[' || c = '\x7b' then ⟨.json (depth + 1), .suffix, bs⟩
    else if c = ']' || c = '\x7d' then ⟨if depth ≤ 1 then .none else .json (depth - 1), .suffix, bs⟩
    else if c = '"' then ⟨.jsonString depth, .suffix, bs⟩
    else ⟨.json depth, .suffix, bs⟩ := rfl

theorem read_jsonString (depth : Nat) : read ⟨.jsonString depth, .suffix, bs⟩ c =
    ⟨if c = '\\' then .jsonEscape depth else if c = '"' then .json depth else .jsonString depth, .suffix, bs⟩ := rfl

theorem read_pattern : read ⟨.pattern, .suffix, bs⟩ c =
    ⟨if c = '\\' then .patternEscape else if c = '/' then .flag else .pattern, .suffix, bs⟩ := rfl

/-- Behind a token it does not matter which one it was. -/
theorem read_rested (h : σ.token.continues c = false) : σ.rested.read c = σ.read c := by
  have hnone : σ.rested.token.continues c = false := rfl
  rw [read, read, hnone, h]
  rfl

/-- The characters that open, separate and close the arguments of a call. -/
def callSigns : List Char := ['(', ',', ')']

/-- None of them is more of a name or of a number. -/
theorem continues_sign (h : c ∈ callSigns) : PartToken.name.continues c = false ∧
    PartToken.integer.continues c = false ∧ ∀ mark, (PartToken.number mark).continues c = false := by
  simp only [callSigns, List.mem_cons, List.not_mem_nil, or_false] at h
  obtain rfl | rfl | rfl := h
  all_goals exact ⟨by decide, by decide, by decide⟩

/-- A reading of the text before a character is taken further without it: the token has ended, the character is read in
the same way, and what followed the token still does. -/
structure Ended (σ τ : Lexing) (c : Char) : Prop where
  ends : σ.token.continues c = false
  reads : τ.read c = σ.read c
  suffix : σ.due = .suffix → τ.due = .suffix
  signs : c ∈ callSigns → τ.token.continues c = false

theorem ended_refl (h : σ.token.continues c = false) : Ended σ σ c := ⟨h, rfl, id, fun _ => h⟩

theorem ended_rested (h : σ.token.continues c = false) : Ended σ σ.rested c := ⟨h, read_rested h, id, fun _ => rfl⟩

/-- A name, a number or an integer begins where no suffix is due. -/
theorem ended_token {due : Due} {τ : Lexing} (hd : due ≠ .suffix) (hr : τ.read c = read ⟨.none, due, bs⟩ c)
    (hs : c ∈ callSigns → τ.token.continues c = false) : Ended ⟨.none, due, bs⟩ τ c :=
  ⟨rfl, hr, fun h => absurd h hd, hs⟩

theorem Ended.trans {τ υ : Lexing} (h : Ended σ τ c) (h' : Ended τ υ c) : Ended σ υ c :=
  ⟨h.ends, h'.reads.trans h.reads, fun hd => h'.suffix (h.suffix hd), h'.signs⟩

theorem tokens_rested (h : σ.goesOn text = false) : σ.rested.tokens text = σ.tokens text := by
  cases text with
  | nil => rfl
  | cons c text =>
    have hc : σ.token.continues c = false := by simpa [goesOn] using h
    have hnone : σ.rested.token.continues c = false := rfl
    rw [tokens, tokens, read_rested hc, hc, hnone]

end Lexing

/-- The second text is the first with blanks between its tokens; `cut` tells whether one of them stands behind dots and
before a bracket. -/
inductive Spread : Bool → Lexing → List Char → List Char → Prop
  | done (σ : Lexing) : Spread false σ [] []
  | keep {cut : Bool} {σ : Lexing} {text spread : List Char} (c : Char) :
      Spread cut (σ.read c) text spread → Spread cut σ (c :: text) (c :: spread)
  | blank {cut : Bool} {σ : Lexing} {text spread : List Char} {b : Char} (hb : Text.isSpace b = true)
      (hg : σ.token.continues b = false) (ht : σ.goesOn text = false) :
      Spread cut σ text spread → Spread (cut || (σ.due = .name && text.head? = some '[')) σ text (b :: spread)

namespace Spread

variable {cut : Bool} {σ : Lexing} {text spread : List Char}

/-- A blank that does not stand between dots and a bracket. -/
theorem elsewhere {b : Char} (hb : Text.isSpace b = true) (hg : σ.token.continues b = false)
    (ht : σ.goesOn text = false) (hd : (σ.due = .name && text.head? = some '[') = false)
    (h : Spread cut σ text spread) : Spread cut σ text (b :: spread) := by
  have hblank := Spread.blank hb hg ht h
  rwa [hd, Bool.or_false] at hblank

theorem goesOn_eq (h : Spread cut σ text spread) : σ.goesOn spread = σ.goesOn text := by
  cases h with
  | done => rfl
  | keep c h => rfl
  | blank hb hg ht h => rw [ht, Lexing.goesOn, List.head?_cons, Option.any_some, hg]

/-- Blanks between tokens leave the tokens as they are. -/
theorem tokens_eq (h : Spread cut σ text spread) : σ.tokens spread = σ.tokens text := by
  induction h with
  | done => rfl
  | keep c h ih => rw [Lexing.tokens, Lexing.tokens, ih, h.goesOn_eq]
  | @blank cut σ text spread b hb hg ht h ih =>
    have hread : σ.read b = σ.rested := by rw [Lexing.read, if_neg (by simp [hg]), if_pos hb]
    rw [Lexing.tokens, if_pos (by simp [hg, hb]), hread, Lexing.tokens_rested (h.goesOn_eq.trans ht), ih]

/-- Blanks can stand behind a token whichever one it was. -/
theorem rested (h : Spread cut σ text spread) (ht : σ.goesOn text = false) : Spread cut σ.rested text spread := by
  induction h with
  | done => exact .done _
  | @keep cut σ text spread c h ih =>
    have hc : σ.token.continues c = false := by simpa [Lexing.goesOn] using ht
    exact .keep c (Lexing.read_rested hc ▸ h)
  | @blank cut σ text spread b hb hg ht h ih =>
    have hnone : σ.rested.goesOn text = false := by cases text <;> rfl
    exact .blank hb rfl hnone (ih ht)

end Spread

end PathQuery
