import PathQuery.Proofs.Query.Postorder

namespace PathQuery.Syntax

mutual

/-- A step of a path. -/
inductive Segment (env : Env) : Type
  | member (n : MemberName)
  | wildcard
  | deepMember (n : MemberName)
  | deepWildcard
  | deepList (first : Element env) (others : List (Element env))
  | list (first : Element env) (others : List (Element env))

/-- An element of a bracket list. -/
inductive Element (env : Env) : Type
  | member (n : ElementName) (path : List (Segment env))
  | wildcard (path : List (Segment env))
  | index (i : Integer)
  | slice (s : SliceText)
  | filter (test : Phrase env (Primary env))
  /-- A computed key starts with a group, which may be all of it. -/
  | computed (key : Phrase env (Primary env)) (tail : Tail env (Primary env))
  | root (path : List (Segment env))
  | current (path : List (Segment env))

/-- An operand of an expression. -/
inductive Primary (env : Env) : Type
  | root (path : List (Segment env))
  | current (path : List (Segment env))
  | call {count : Nat} (f : Callee env) (arguments : Arguments env count) (h : f.function.accepts count = true)
      (path : List (Segment env))
  | literal (l : Literal env)

/-- So many arguments of a call. -/
inductive Arguments (env : Env) : Nat → Type
  | nil : Arguments env 0
  | cons {count : Nat} (first : Phrase env (Primary env)) (others : Arguments env count) : Arguments env (count + 1)

end

variable {env : Env}

mutual

/-- How a step is written. -/
def Segment.tokens : Segment env → List Token
  | .member n => [.char '.', n.token]
  | .wildcard => [.char '.', .char '*']
  | .deepMember n => [⟨'.', ['.'], false⟩, n.token]
  | .deepWildcard => [⟨'.', ['.'], false⟩, .char '*']
  | .deepList first others => ⟨'.', ['.', '['], false⟩ :: (first.tokens ++ othersTokens others ++ [.char ']'])
  | .list first others => .char '[' :: (first.tokens ++ othersTokens others ++ [.char ']'])

def pathTokens : List (Segment env) → List Token
  | [] => []
  | s :: path => s.tokens ++ pathTokens path

def Element.tokens : Element env → List Token
  | .member n path => n.token :: pathTokens path
  | .wildcard path => .char '*' :: pathTokens path
  | .index i => [i.token]
  | .slice s => s.tokens
  | .filter test => .char '?' :: phraseTokens test
  | .computed key tail => .char '(' :: (phraseTokens key ++ .char ')' :: tailTokens tail)
  | .root path => .char '$' :: pathTokens path
  | .current path => .char '@' :: pathTokens path

/-- The elements behind the first, each behind a comma. -/
def othersTokens : List (Element env) → List Token
  | [] => []
  | e :: others => .char ',' :: (e.tokens ++ othersTokens others)

def Primary.tokens : Primary env → List Token
  | .root path => .char '$' :: pathTokens path
  | .current path => .char '@' :: pathTokens path
  | .call f arguments _ path => f.name.token :: .char '(' :: (arguments.tokens ++ .char ')' :: pathTokens path)
  | .literal l => [l.token]

def phraseTokens : Phrase env (Primary env) → List Token
  | .prefixed op rest => op.token :: phraseTokens rest
  | .operand a tail => a.tokens ++ tailTokens tail
  | .group inner tail => .char '(' :: (phraseTokens inner ++ .char ')' :: tailTokens tail)

def tailTokens : Tail env (Primary env) → List Token
  | .done => []
  | .likes r rest => likesToken :: r.token :: tailTokens rest
  | .binary op rest => binaryToken op :: phraseTokens rest

def Arguments.tokens {count : Nat} : Arguments env count → List Token
  | .nil => []
  | .cons first others => phraseTokens first ++ others.furtherTokens

/-- Arguments behind others, each behind a comma. -/
def Arguments.furtherTokens {count : Nat} : Arguments env count → List Token
  | .nil => []
  | .cons first others => .char ',' :: (phraseTokens first ++ others.furtherTokens)

end

mutual

/-- How often the root occurs. -/
def Segment.roots : Segment env → Nat
  | .deepList first others => first.roots + othersRoots others
  | .list first others => first.roots + othersRoots others
  | _ => 0

def pathRoots : List (Segment env) → Nat
  | [] => 0
  | s :: path => s.roots + pathRoots path

def Element.roots : Element env → Nat
  | .member _ path => pathRoots path
  | .wildcard path => pathRoots path
  | .index _ => 0
  | .slice _ => 0
  | .filter test => phraseRoots test
  | .computed key tail => phraseRoots key + tailRoots tail
  | .root path => 1 + pathRoots path
  | .current path => pathRoots path

def othersRoots : List (Element env) → Nat
  | [] => 0
  | e :: others => e.roots + othersRoots others

def Primary.roots : Primary env → Nat
  | .root path => 1 + pathRoots path
  | .current path => pathRoots path
  | .call _ arguments _ path => arguments.roots + pathRoots path
  | .literal _ => 0

def phraseRoots : Phrase env (Primary env) → Nat
  | .prefixed _ rest => phraseRoots rest
  | .operand a tail => a.roots + tailRoots tail
  | .group inner tail => phraseRoots inner + tailRoots tail

def tailRoots : Tail env (Primary env) → Nat
  | .done => 0
  | .likes _ rest => tailRoots rest
  | .binary _ rest => phraseRoots rest

def Arguments.roots {count : Nat} : Arguments env count → Nat
  | .nil => 0
  | .cons first others => phraseRoots first + others.roots

end

/-- Where a branch of a bracket list says that it starts from. -/
inductive Anchor
  | root
  | current

def Anchor.instr : Anchor → Instr
  | root => .root
  | current => .current

/-- A branch of a bracket list. It starts from the current node if it does not say otherwise. -/
structure Branch where
  anchor : Option Anchor
  path : List Selector

def Branch.program (b : Branch) : Program := [(b.anchor.getD .current).instr, .path b.path]

/-- A bracket list goes on with the path if its only branch is one that does not say where it starts from; any other is
a union of its branches. -/
def bracketSelectors : Branch → List Branch → List Selector
  | ⟨none, path⟩, [] => path
  | first, others => [.union ((first :: others).map Branch.program)]

mutual

/-- What a step stands for; the roots in it are numbered from `k`. -/
def Segment.selectors (k : Nat) : Segment env → List Selector
  | .member n => [.member n.value]
  | .wildcard => [.wildcard]
  | .deepMember n => [.descend, .member n.value]
  | .deepWildcard => [.descend, .wildcard]
  | .deepList first others =>
    .descend :: bracketSelectors (first.branch k) (othersBranches (k + first.roots) others)
  | .list first others => bracketSelectors (first.branch k) (othersBranches (k + first.roots) others)

def pathSelectors (k : Nat) : List (Segment env) → List Selector
  | [] => []
  | s :: path => s.selectors k ++ pathSelectors (k + s.roots) path

def Element.branch (k : Nat) : Element env → Branch
  | .member n path => ⟨none, .member n.value :: pathSelectors k path⟩
  | .wildcard path => ⟨none, .wildcard :: pathSelectors k path⟩
  | .index i => ⟨none, [.index i.value]⟩
  | .slice s => ⟨none, [.slice s.slice]⟩
  | .filter test => ⟨none, [.filter (phraseAtoms k test).tree.post]⟩
  | .computed key tail =>
    ⟨none, [.computed (Phrase.group (phraseAtoms k key) (tailAtoms (k + phraseRoots key) tail)).tree.post]⟩
  | .root path => ⟨some .root, .root k :: pathSelectors (k + 1) path⟩
  | .current path => ⟨some .current, .current :: pathSelectors k path⟩

def othersBranches (k : Nat) : List (Element env) → List Branch
  | [] => []
  | e :: others => e.branch k :: othersBranches (k + e.roots) others

def Primary.atom (k : Nat) : Primary env → Atom
  | .root path => .root (.root k :: pathSelectors (k + 1) path)
  | .current path => .current (.current :: pathSelectors k path)
  | .call f arguments _ path =>
    .current (.call f.function (arguments.programs k) :: pathSelectors (k + arguments.roots) path)
  | .literal l => .literal l.value

def phraseAtoms (k : Nat) : Phrase env (Primary env) → Phrase env Atom
  | .prefixed op rest => .prefixed op (phraseAtoms k rest)
  | .operand a tail => .operand (a.atom k) (tailAtoms (k + a.roots) tail)
  | .group inner tail => .group (phraseAtoms k inner) (tailAtoms (k + phraseRoots inner) tail)

def tailAtoms (k : Nat) : Tail env (Primary env) → Tail env Atom
  | .done => .done
  | .likes r rest => .likes r (tailAtoms k rest)
  | .binary op rest => .binary op (phraseAtoms k rest)

def Arguments.programs (k : Nat) {count : Nat} : Arguments env count → List Program
  | .nil => []
  | .cons first others => (phraseAtoms k first).tree.post :: others.programs (k + phraseRoots first)

end

/-- A query: a path from the root, or behind a call. -/
inductive Source (env : Env)
  | root (path : List (Segment env))
  | call {count : Nat} (f : Callee env) (arguments : Arguments env count) (h : f.function.accepts count = true)
      (path : List (Segment env))

namespace Source

def primary : Source env → Primary env
  | root path => .root path
  | call f arguments h path => .call f arguments h path

def tokens (q : Source env) : List Token := q.primary.tokens

/-- The program that a query stands for. -/
def program (q : Source env) : Program := (q.primary.atom 0).program

/-- A text of a query. -/
def IsText (q : Source env) (text : String) : Prop :=
  ∃ blanks body, Blanks blanks ∧ Written q.tokens body ∧ text.toList = blanks ++ body

/-- Writes tokens with blanks around those that are set off. -/
def write : List Token → List Char
  | [] => []
  | t :: ts => t.text ++ ((if t.apart || needsBlank ts then [' '] else []) ++ write ts)

theorem written_write (ts : List Token) : Written ts (write ts) := by
  induction ts with
  | nil => exact .nil
  | cons t ts ih =>
    rw [write]
    refine .cons ?_ ?_ ih
    · split
      · simp [Blanks, Text.isSpace]
      · exact blanks_nil
    · intro hn
      simp [hn]

def text (q : Source env) : String := String.ofList (write q.tokens)

theorem isText_text (q : Source env) : q.IsText q.text :=
  ⟨[], write q.tokens, blanks_nil, written_write q.tokens, by simp [text]⟩

end Source

end PathQuery.Syntax
