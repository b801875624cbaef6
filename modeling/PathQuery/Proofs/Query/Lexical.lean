import PathQuery.Env
import PathQuery.Proofs.Location.Text
import PathQuery.Proofs.Query.JsonGrammar
import PathQuery.Query.Mode
import PathQuery.Query.Operator
import PathQuery.Query.Slice

namespace PathQuery.Readers

/-- An integer that is not negative is read from its decimal digits if it fits into 64 bits. -/
def ReadsIntegers (r : Readers) : Prop :=
  ∀ n : Nat, fitsUInt64 n = true → r.json? (String.ofList (Nat.toDigits 10 n)) = some (.ofNat n)

end PathQuery.Readers

namespace PathQuery.Syntax

variable {env : Env}

/-- Characters that belong together in the text. -/
structure Token where
  first : Char
  others : List Char
  /-- Whether there has to be a blank before the token. -/
  apart : Bool

namespace Token

def text (t : Token) : List Char := t.first :: t.others

/-- A token of one character. -/
def char (c : Char) : Token := ⟨c, [], false⟩

@[simp] theorem text_char (c : Char) : (char c).text = [c] := rfl

@[simp] theorem apart_char (c : Char) : (char c).apart = false := rfl

end Token

/-- Whether the first of some tokens has to be apart from what stands before it. -/
def needsBlank (ts : List Token) : Bool := ts.head?.any Token.apart

/-- A text of tokens, with blanks behind each token. -/
inductive Written : List Token → List Char → Prop
  | nil : Written [] []
  | cons {t : Token} {ts : List Token} {blanks text : List Char} (hb : Blanks blanks)
      (ha : needsBlank ts = true → blanks ≠ []) (ht : Written ts text) : Written (t :: ts) (t.text ++ (blanks ++ text))

/-- Tokens can stand side by side if none of them has to be set off. -/
theorem written_texts {ts : List Token} (h : ∀ t ∈ ts, t.apart = false) : Written ts (ts.flatMap Token.text) := by
  induction ts with
  | nil => exact .nil
  | cons t ts ih =>
    have hts : ∀ u ∈ ts, u.apart = false := fun u hu => h u (List.mem_cons_of_mem t hu)
    refine .cons blanks_nil ?_ (ih hts)
    intro hn
    cases ts with
    | nil => cases hn
    | cons u ts =>
      have hu : u.apart = true := hn
      rw [hts u List.mem_cons_self] at hu
      cases hu

/-- A text of tokens, with blanks before the first and behind each. -/
def IsTextOf (ts : List Token) (text : String) : Prop :=
  ∃ blanks body, Blanks blanks ∧ Written ts body ∧ text.toList = blanks ++ body

theorem isTextOf_texts {ts : List Token} (h : ∀ t ∈ ts, t.apart = false) :
    IsTextOf ts (String.ofList (ts.flatMap Token.text)) :=
  ⟨[], ts.flatMap Token.text, blanks_nil, written_texts h, by simp⟩

/-- A character can stand behind a text. -/
theorem Written.append_char {ts : List Token} {text : List Char} (h : Written ts text) (c : Char) :
    Written (ts ++ [.char c]) (text ++ [c]) := by
  induction h with
  | nil => exact .cons blanks_nil (fun hn => by cases hn) .nil
  | @cons t ts blanks text hb ha _ ih =>
    have hneeds : needsBlank (ts ++ [.char c]) = true → blanks ≠ [] := by
      intro hn
      cases ts with
      | nil => cases hn
      | cons u ts => exact ha hn
    have happend : t.text ++ (blanks ++ text) ++ [c] = t.text ++ (blanks ++ (text ++ [c])) := by simp
    rw [happend]
    exact .cons hb hneeds ih

/-- A name without quotes. -/
structure BareName where
  first : Char
  others : List Char
  plain : ∀ c ∈ first :: others, isDelimiter c = false

theorem plain_of_all {cs : List Char} (h : cs.all (!isDelimiter ·) = true) : ∀ c ∈ cs, isDelimiter c = false := by
  intro c hc
  simpa using List.all_eq_true.1 h c hc

namespace BareName

def value (n : BareName) : String := String.ofList (n.first :: n.others)

def token (n : BareName) : Token := ⟨n.first, n.others, false⟩

end BareName

/-- What stands behind a backslash in quotes, and the character that it stands for. -/
inductive EscapeText : List Char → Char → Prop
  | short {c d : Char} (h : Text.nameEscape? c = some d) : EscapeText [c] d
  | unit {cs : List Char} {n : Nat} (h : HexUnit cs n) (hh : Text.isHighSurrogate n = false)
      (hl : Text.isLowSurrogate n = false) : EscapeText ('u' :: cs) (Char.ofNat n)
  | pair {cs ds : List Char} {m n : Nat} (hm : HexUnit cs m) (hn : HexUnit ds n) (hh : Text.isHighSurrogate m = true)
      (hl : Text.isLowSurrogate n = true) :
      EscapeText ('u' :: (cs ++ '\\' :: 'u' :: ds)) (Char.ofNat (Text.joinSurrogates m n))

/-- What stands between quotes, and what it stands for. -/
inductive Spells (quote : Char) : List Char → List Char → Prop
  | nil : Spells quote [] []
  | char {c : Char} {body value : List Char} (hq : c ≠ quote) (hb : c ≠ '\\') (h : Spells quote body value) :
      Spells quote (c :: body) (c :: value)
  | escape {es : List Char} {d : Char} {body value : List Char} (he : EscapeText es d) (h : Spells quote body value) :
      Spells quote ('\\' :: (es ++ body)) (d :: value)

/-- A text in quotes. -/
structure QuotedText where
  quote : Char
  isQuote : quote = '\'' ∨ quote = '"'
  body : List Char
  chars : List Char
  spells : Spells quote body chars

namespace QuotedText

def value (t : QuotedText) : String := String.ofList t.chars

def token (t : QuotedText) : Token := ⟨t.quote, t.body ++ [t.quote], false⟩

end QuotedText

/-- The escape of a control character is one unit. -/
theorem escapeText_control {c : Char} (hc : c.toNat < 0x20) : EscapeText (Text.controlEscape c).tail c := by
  have hzero : Text.hexValue? '0' = some 0 := rfl
  have hunit := HexUnit.mk hzero hzero (Text.hexValue?_hexDigit (c.toNat / 16)) (Text.hexValue?_hexDigit c.toNat)
  have hcode : ((0 * 16 + 0) * 16 + c.toNat / 16 % 16) * 16 + c.toNat % 16 = c.toNat := by omega
  rw [hcode] at hunit
  have hhigh : Text.isHighSurrogate c.toNat = false := by
    simp only [Text.isHighSurrogate, Bool.and_eq_false_iff, decide_eq_false_iff_not]
    omega
  have hlow : Text.isLowSurrogate c.toNat = false := by
    simp only [Text.isLowSurrogate, Bool.and_eq_false_iff, decide_eq_false_iff_not]
    omega
  have hescape := EscapeText.unit hunit hhigh hlow
  rwa [Char.ofNat_toNat] at hescape

/-- What a text is written as between single quotes. -/
theorem spells_escape (cs : List Char) : Spells '\'' (Text.escape '\'' cs) cs := by
  induction cs with
  | nil => exact .nil
  | cons c cs ih =>
    have hcons : Text.escape '\'' (c :: cs) = Text.escapeChar '\'' c ++ Text.escape '\'' cs := rfl
    rw [hcons]
    obtain ⟨h, hq, hb⟩ | ⟨h, rfl⟩ | ⟨e, h, he⟩ | ⟨h, hc⟩ := Text.escapeChar_cases '\'' c
    · rw [h]
      exact .char hq hb ih
    · rw [h]
      exact .escape (.short (c := '\'') rfl) ih
    · rw [h]
      exact .escape (.short (Text.nameEscape?_of_shortEscape? e c he)) ih
    · rw [h]
      exact .escape (escapeText_control hc) ih

theorem isQuote_single : '\'' = '\'' ∨ '\'' = '"' := .inl rfl

/-- A text between single quotes, with the escapes of normalized paths. -/
def QuotedText.ofString (s : String) : QuotedText :=
  ⟨'\'', isQuote_single, Text.escape '\'' s.toList, s.toList, spells_escape s.toList⟩

namespace QuotedText

@[simp] theorem value_ofString (s : String) : (ofString s).value = s := String.ofList_toList

theorem text_ofString (s : String) : (ofString s).token.text = (Text.quoted '\'' s).toList := by
  simp [ofString, token, Token.text, Text.quoted]

end QuotedText

/-- A member name behind a dot. -/
inductive MemberName
  | bare (n : BareName)
  | quoted (t : QuotedText)

namespace MemberName

def value : MemberName → String
  | bare n => n.value
  | quoted t => t.value

def token : MemberName → Token
  | bare n => n.token
  | quoted t => t.token

end MemberName

/-- A member name between brackets. A bare one must not look like an integer. -/
inductive ElementName
  | bare (n : BareName) (hd : n.first ≠ '-') (hn : n.first.isDigit = false)
  | quoted (t : QuotedText)

namespace ElementName

def value : ElementName → String
  | bare n _ _ => n.value
  | quoted t => t.value

def token : ElementName → Token
  | bare n _ _ => n.token
  | quoted t => t.token

end ElementName

/-- An integer of 64 bits. -/
structure Integer where
  first : Char
  digits : List Char
  starts : first = '-' ∨ first.isDigit = true
  areDigits : ∀ c ∈ digits, c.isDigit = true
  value : Int
  reads : (readInt? (first :: digits)).bind int64? = some value

def Integer.token (i : Integer) : Token := ⟨i.first, i.digits, false⟩

theorem readNat?_toDigits (n : Nat) : readNat? (Nat.toDigits 10 n) = some n := by
  have hn : (Nat.toDigits 10 n).isEmpty = false := by
    rw [List.isEmpty_eq_false_iff]
    exact Nat.toDigits_ne_nil
  have hd : (Nat.toDigits 10 n).all Char.isDigit = true := List.all_eq_true.2 fun _ => isDigit_of_mem_toDigits
  simp [readNat?, hn, hd, natOfDigits_toDigits]

/-- The decimal digits of an integer, behind a sign if it is negative. -/
theorem repr_toList (i : Int) :
    i.repr.toList = if 0 ≤ i then Nat.toDigits 10 i.natAbs else '-' :: Nat.toDigits 10 i.natAbs := by
  rw [Int.repr_eq_if]
  split
  · next h =>
    have hn : i.toNat = i.natAbs := by omega
    simp [hn]
  · next h =>
    have hn : (-i).toNat = i.natAbs := by omega
    simp [hn]

theorem readInt?_repr (i : Int) : readInt? i.repr.toList = some i := by
  obtain ⟨d, ds, hds⟩ := List.exists_cons_of_ne_nil (Nat.toDigits_ne_nil : Nat.toDigits 10 i.natAbs ≠ [])
  have hread : readNat? (d :: ds) = some i.natAbs := hds ▸ readNat?_toDigits i.natAbs
  rw [repr_toList, hds]
  split
  · next h =>
    have hfirst : d.isDigit = true := isDigit_of_mem_toDigits (hds ▸ List.mem_cons_self)
    unfold readInt?
    split
    · next he =>
      obtain ⟨rfl, -⟩ := List.cons.inj he
      cases hfirst
    · next he =>
      obtain ⟨rfl, -⟩ := List.cons.inj he
      cases hfirst
    · rw [hread, Option.map_some, Int.ofNat_eq_natCast, Int.natAbs_of_nonneg h]
  · next h =>
    rw [readInt?, hread]
    show some (-(i.natAbs : Int)) = some i
    rw [Int.ofNat_natAbs_of_nonpos (by omega), Int.neg_neg]

namespace Integer

/-- An integer of 64 bits can be written with its decimal digits. -/
theorem exists_repr {i : Int} (h : fitsInt64 i = true) : ∃ n : Integer, n.value = i ∧ n.token.text = i.repr.toList := by
  have h64 : int64? i = some i := if_pos h
  have hread : (readInt? i.repr.toList).bind int64? = some i := by rw [readInt?_repr, Option.bind_some, h64]
  obtain ⟨d, ds, hds⟩ := List.exists_cons_of_ne_nil (Nat.toDigits_ne_nil : Nat.toDigits 10 i.natAbs ≠ [])
  have hdigit : ∀ c ∈ d :: ds, c.isDigit = true := fun c hc => isDigit_of_mem_toDigits (hds ▸ hc)
  rw [repr_toList, hds] at hread ⊢
  split at hread
  · exact ⟨⟨d, ds, .inr (hdigit d (by simp)), fun c hc => hdigit c (List.mem_cons_of_mem _ hc), i, hread⟩, rfl,
      (if_pos ‹_›).symm⟩
  · exact ⟨⟨'-', d :: ds, .inl rfl, hdigit, i, hread⟩, rfl, (if_neg ‹_›).symm⟩

end Integer

/-- A slice. Each bound may be missing, and the second colon too. -/
structure SliceText where
  start : Option Integer
  stop : Option Integer
  step : Option (Option Integer)
  nonzero : ∀ i, step = some (some i) → i.value ≠ 0

namespace SliceText

def slice (s : SliceText) : Slice :=
  ⟨s.start.map (·.value), s.stop.map (·.value), (s.step.join.map (·.value)).getD 1⟩

def boundTokens (i : Option Integer) : List Token := i.toList.map (·.token)

def tokens (s : SliceText) : List Token :=
  boundTokens s.start ++ .char ':' :: boundTokens s.stop ++
    match s.step with
    | none => []
    | some i => .char ':' :: boundTokens i

end SliceText

/-- The decimal digits of an integer that is not negative. -/
def digitsToken (n : Nat) : Token := ⟨(Nat.toDigits 10 n).headD '0', (Nat.toDigits 10 n).tail, false⟩

@[simp] theorem text_digitsToken (n : Nat) : (digitsToken n).text = Nat.toDigits 10 n := by
  obtain ⟨d, ds, hds⟩ := List.exists_cons_of_ne_nil (Nat.toDigits_ne_nil : Nat.toDigits 10 n ≠ [])
  simp [digitsToken, Token.text, hds]

/-- A number that is not negative. -/
structure NumberText (env : Env) where
  first : Char
  others : List Char
  unsigned : Unsigned (first :: others)
  value : Number
  reads : env.number? (String.ofList (first :: others)) = some value

def NumberText.token (n : NumberText env) : Token := ⟨n.first, n.others, false⟩

/-- A name that stands for a value. -/
inductive Keyword
  | true
  | false
  | null

namespace Keyword

def value : Keyword → Value
  | true => .bool .true
  | false => .bool .false
  | null => .null

def token : Keyword → Token
  | true => ⟨'t', ['r', 'u', 'e'], .false⟩
  | false => ⟨'f', ['a', 'l', 's', 'e'], .false⟩
  | null => ⟨'n', ['u', 'l', 'l'], .false⟩

end Keyword

/-- A JSON array or object. -/
structure JsonText (env : Env) where
  first : Char
  others : List Char
  container : IsJson .container (first :: others)
  value : Value
  reads : env.json? (String.ofList (first :: others)) = some value

def JsonText.token (j : JsonText env) : Token := ⟨j.first, j.others, false⟩

inductive Literal (env : Env)
  | text (t : QuotedText)
  /-- An integer, written with its decimal digits. -/
  | integer (h : env.ReadsIntegers) (n : Nat) (hn : fitsUInt64 n = true)
  | number (n : NumberText env)
  | keyword (k : Keyword)
  | json (j : JsonText env)

namespace Literal

def value : Literal env → Value
  | text t => .string t.value
  | integer _ n _ => .ofNat n
  | number n => .number n.value
  | keyword k => k.value
  | json j => j.value

def token : Literal env → Token
  | text t => t.token
  | integer _ n _ => digitsToken n
  | number n => n.token
  | keyword k => k.token
  | json j => j.token

end Literal

/-- What stands between slashes, and the regular expression that it stands for: an escaped slash is a slash, any other
escape is left to the expression. -/
inductive SpellsPattern : List Char → List Char → Prop
  | nil : SpellsPattern [] []
  | char {c : Char} {body expression : List Char} (hs : c ≠ '/') (hb : c ≠ '\\') (h : SpellsPattern body expression) :
      SpellsPattern (c :: body) (c :: expression)
  | slash {body expression : List Char} (h : SpellsPattern body expression) :
      SpellsPattern ('\\' :: '/' :: body) ('/' :: expression)
  | escape {c : Char} {body expression : List Char} (hs : c ≠ '/') (h : SpellsPattern body expression) :
      SpellsPattern ('\\' :: c :: body) ('\\' :: c :: expression)

/-- A valid regular expression between slashes, perhaps with the flag that folds case. -/
structure PatternText (env : Env) where
  body : List Char
  expression : List Char
  spells : SpellsPattern body expression
  fold : Bool
  pattern : Pattern
  reads : env.pattern (String.ofList expression) fold = .ok pattern

def PatternText.token (r : PatternText env) : Token := ⟨'/', r.body ++ '/' :: (if r.fold then ['i'] else []), false⟩

/-- A known function, called by a name that starts with a letter or an underscore. -/
structure Callee (env : Env) where
  name : BareName
  starts : isNameStart name.first = true
  function : Function
  found : Function.find? name.value env.functions = some function

/-- A prefix operator. -/
inductive PrefixOp
  | not
  | negate

namespace PrefixOp

def op : PrefixOp → UnaryOp
  | not => .not
  | negate => .negate

def token : PrefixOp → Token
  | not => .char '!'
  | negate => .char '-'

end PrefixOp

/-- Binary operators are set off by blanks. -/
def binaryToken : BinaryOp → Token
  | .or => ⟨'|', ['|'], true⟩
  | .and => ⟨'&', ['&'], true⟩
  | .eq => ⟨'=', ['='], true⟩
  | .ne => ⟨'!', ['='], true⟩
  | .lt => ⟨'<', [], true⟩
  | .le => ⟨'<', ['='], true⟩
  | .gt => ⟨'>', [], true⟩
  | .ge => ⟨'>', ['='], true⟩
  | .add => ⟨'+', [], true⟩
  | .sub => ⟨'-', [], true⟩
  | .mul => ⟨'*', [], true⟩
  | .div => ⟨'/', [], true⟩

/-- What stands between an expression and the regular expression that it is matched with. -/
def likesToken : Token := ⟨'=', ['~'], true⟩

end PathQuery.Syntax
