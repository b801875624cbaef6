import PathQuery.Text.Blank
import PathQuery.Text.CaseFold
import PathQuery.Text.WordCharacter

namespace PathQuery

/-- A set of characters. -/
inductive CharSet
  | range (first last : Nat)
  | digit
  | blank
  | word
  /-- The characters that have a case variant in the set. -/
  | folded (s : CharSet)
  | complement (s : CharSet)
  | union (s t : CharSet)
  | inter (s t : CharSet)

namespace CharSet

def empty : CharSet := range 1 0

def any : CharSet := range 0 0x10FFFF

def single (c : Char) : CharSet := range c.toNat c.toNat

def mem (c : Char) : CharSet → Bool
  | range first last => first ≤ c.toNat && c.toNat ≤ last
  | digit => Text.isDecimalDigit c
  | blank => Text.isBlank c
  | word => Text.isWordCharacter c
  | folded s => (Text.caseVariants c).any (mem · s)
  | complement s => !mem c s
  | union s t => mem c s || mem c t
  | inter s t => mem c s && mem c t

end CharSet

/-- A condition on the place between two characters. -/
inductive Look
  | textStart
  | textEnd
  | lineStart
  | lineEnd
  | wordBoundary
  | noWordBoundary

inductive Regex
  | empty
  | one (s : CharSet)
  | look (l : Look)
  | seq (p q : Regex)
  | alt (p q : Regex)
  /-- At least `least` rounds, at most `most` if there is a bound; as many as possible if greedy. -/
  | times (p : Regex) (least : Nat) (most : Option Nat) (greedy : Bool)

/-- A place in a text: how many characters lie before it, the last of them, and the characters behind it. -/
structure Place where
  index : Nat
  previous : Option Char
  rest : List Char

namespace Place

def start (cs : List Char) : Place := ⟨0, none, cs⟩

/-- The place one character further, if there is one. -/
def next? (x : Place) : Option Place :=
  match x.rest with
  | [] => none
  | c :: cs => some ⟨x.index + 1, some c, cs⟩

def isWord (c : Option Char) : Bool := c.any Text.isWordCharacter

def satisfies (x : Place) : Look → Bool
  | .textStart => x.previous.isNone
  | .textEnd => x.rest.isEmpty
  | .lineStart => x.previous.all (· == '\n')
  | .lineEnd => x.rest.head?.all (· == '\n')
  | .wordBoundary => isWord x.previous != isWord x.rest.head?
  | .noWordBoundary => isWord x.previous == isWord x.rest.head?

def isIn (x : Place) (xs : List Place) : Bool := xs.any (·.index == x.index)

/-- Adds a place behind those that have priority over it. -/
def add (xs : List Place) (x : Place) : List Place := if x.isIn xs then xs else xs ++ [x]

end Place

namespace Regex

/-- The ends of all matches of `f` from some places, each once. -/
def endsFrom (f : Place → List Place) (xs : List Place) : List Place :=
  (xs.flatMap f).foldl Place.add []

/-- The ends of exactly `n` rounds. -/
def rounds (f : Place → List Place) : Nat → List Place → List Place
  | 0, xs => xs
  | n + 1, xs => rounds f n (endsFrom f xs)

/-- The ends of at most `n` rounds. -/
def upTo (f : Place → List Place) (greedy : Bool) : Nat → Place → List Place
  | 0, x => [x]
  | n + 1, x =>
    let more := endsFrom (upTo f greedy n) (f x)
    if greedy then Place.add more x else more.foldl Place.add [x]

/-- Adds the ends of one round or more. A round that consumes nothing is the last, and a place that has been reached
before leads nowhere new; `fuel` bounds the rounds that consume something. -/
def oneOrMore (f : Place → List Place) (greedy : Bool) : Nat → List Place → Place → List Place
  | 0, found, _ => found
  | fuel + 1, found, x =>
    (f x).foldl (fun found e =>
      if e.isIn found then found
      else if e.index ≤ x.index then Place.add found e
      else if greedy then Place.add (oneOrMore f greedy fuel found e) e
      else oneOrMore f greedy fuel (Place.add found e) e) found

/-- The ends of the matches that start at a place, in order of priority. -/
def ends : Regex → Place → List Place
  | empty, x => [x]
  | one s, x =>
    match x.rest with
    | [] => []
    | c :: _ => if s.mem c then x.next?.toList else []
  | look l, x => if x.satisfies l then [x] else []
  | seq p q, x => endsFrom (ends q) (ends p x)
  | alt p q, x => (ends p x ++ ends q x).foldl Place.add []
  | times p least (some most) greedy, x =>
    endsFrom (upTo (ends p) greedy (most - least)) (rounds (ends p) least [x])
  | times p 0 none greedy, x =>
    let more := oneOrMore (ends p) greedy (x.rest.length + 1) [] x
    if greedy then Place.add more x else more.foldl Place.add [x]
  | times p (least + 1) none greedy, x =>
    endsFrom (fun y => oneOrMore (ends p) greedy (y.rest.length + 1) [] y) (rounds (ends p) least [x])

/-- The first match that starts at a place or behind it: where it starts and where it ends. -/
def find? (p : Regex) (x : Place) : List Char → Option (Place × Place)
  | [] => (p.ends x).head?.map (x, ·)
  | _ :: cs =>
    match p.ends x with
    | e :: _ => some (x, e)
    | [] => match x.next? with
      | some y => find? p y cs
      | none => none

def findFrom? (p : Regex) (x : Place) : Option (Place × Place) := p.find? x x.rest

/-- Whether a text has a match anywhere. -/
def isMatch (p : Regex) (s : String) : Bool := (p.findFrom? (.start s.toList)).isSome

/-- The next match behind one that ended at `x`. An empty match there is passed over. -/
def nextMatch? (p : Regex) (x : Place) (lastEnd : Option Nat) : Option (Place × Place) :=
  match p.findFrom? x with
  | none => none
  | some (s, e) =>
    if s.index = e.index && lastEnd == some e.index then x.next?.bind p.findFrom? else some (s, e)

/-- All matches that follow each other, as pairs of indices; `fuel` bounds their number. -/
def matchesFrom (p : Regex) : Nat → Place → Option Nat → List (Nat × Nat)
  | 0, _, _ => []
  | fuel + 1, x, lastEnd =>
    match p.nextMatch? x lastEnd with
    | none => []
    | some (s, e) => (s.index, e.index) :: matchesFrom p fuel e (some e.index)

/-- The parts of a text between given matches. -/
def partsBetween (cs : List Char) : Nat → List (Nat × Nat) → List (List Char)
  | start, [] => [cs.drop start]
  | start, (s, e) :: ms => (cs.drop start).take (s - start) :: partsBetween cs e ms

/-- Splits a text at the matches. An empty match splits between two characters. -/
def split (p : Regex) (s : String) : List String :=
  let cs := s.toList
  (partsBetween cs 0 (p.matchesFrom (cs.length + 2) (.start cs) none)).map String.ofList

end Regex

end PathQuery
