import PathQuery.Proofs.Query.Punctuation

namespace PathQuery.Syntax

variable {env : Env}

/-- The assembly behind a branch of a bracket list. -/
def Branch.assembled (b : Branch) (a : Assembly) : Assembly := { a with items := b.items.reverse ++ a.items }

def Segment.Reads (s : Segment env) : Prop :=
  ∀ {ts : List Token} {mode : Mode} {below : List Mode} {a : Assembly} {p : List Selector} {k : Nat},
    Onward mode → EndsName ts →
    Leads env ⟨s.tokens ++ ts, mode :: below, a.withPath p, k⟩
      ⟨ts, mode :: below, a.withPath (p ++ s.selectors k), k + s.roots⟩

def PathReads (path : List (Segment env)) : Prop :=
  ∀ {ts : List Token} {mode : Mode} {below : List Mode} {a : Assembly} {p : List Selector} {k : Nat},
    Onward mode → EndsName ts →
    Leads env ⟨pathTokens path ++ ts, mode :: below, a.withPath p, k⟩
      ⟨ts, mode :: below, a.withPath (p ++ pathSelectors k path), k + pathRoots path⟩

def Element.Reads (e : Element env) : Prop :=
  ∀ {t : Token} {ts : List Token} {below : List Mode} {a : Assembly} {k : Nat}, EndsElement t → a.Clear →
    Leads env ⟨e.tokens ++ t :: ts, .element :: .elementEnd :: below, a, k⟩
      ⟨t :: ts, .elementEnd :: below, (e.branch k).assembled a, k + e.roots⟩

/-- The elements that follow others, and the end of the bracket list. -/
def OthersRead (others : List (Element env)) : Prop :=
  ∀ {ts : List Token} {below : List Mode} {a : Assembly} {first : Branch} {done : List Branch} {k : Nat},
    Leads env ⟨othersTokens others ++ .char ']' :: ts, .elementEnd :: below, a.withList first done, k⟩
      ⟨ts, below, a.pushPath (bracketSelectors first (done ++ othersBranches k others)), k + othersRoots others⟩

def Primary.Reads (q : Primary env) : Prop :=
  ∀ {ts : List Token} {below : List Mode} {a : Assembly} {k : Nat}, Stops ts →
    Leads env ⟨q.tokens ++ ts, .operand :: .operator :: below, a, k⟩
      ⟨ts, .operator :: below, (Tree.operand (q.atom k) : Tree env Atom).assembled a, k + q.roots⟩

/-- In the assembly `b` the context `f` of the phrase has been read, behind the assembly `a`. -/
def PhraseReads (p : Phrase env (Primary env)) : Prop :=
  ∀ {ts : List Token} {below : List Mode} {f : Tree env Atom → Tree env Atom} {a b : Assembly} {k : Nat},
    Stops ts → Accepts f → Prepared f a b → Firm a.pending →
    Leads env ⟨phraseTokens p ++ ts, .operand :: .operator :: below, b, k⟩
      ⟨ts, .operator :: below, ((phraseAtoms k p).under f).assembled a, k + phraseRoots p⟩

def TailReads (tail : Tail env (Primary env)) : Prop :=
  ∀ {ts : List Token} {below : List Mode} {t : Tree env Atom} {a : Assembly} {k : Nat},
    Stops ts → t.Conforms → Firm a.pending →
    Leads env ⟨tailTokens tail ++ ts, .operator :: below, t.assembled a, k⟩
      ⟨ts, .operator :: below, ((tailAtoms k tail).extend t).assembled a, k + tailRoots tail⟩

structure Arguments.Reads {count : Nat} (arguments : Arguments env count) : Prop where
  /-- All arguments of a call, and its end. -/
  all : ∀ {ts : List Token} {below : List Mode} {f : Function} {a : Assembly} {k : Nat}, f.accepts count = true →
    Leads env ⟨arguments.tokens ++ .char ')' :: ts, .firstArgument :: .arguments :: below, a.openScope (.call f), k⟩
      ⟨ts, below, a.pushSelector (.call f (arguments.programs k)), k + arguments.roots⟩
  /-- Arguments that follow others, the last of which is not complete yet, and the end of the call. -/
  further : ∀ {ts : List Token} {below : List Mode} {f : Function} {ps : List Program} {t : Tree env Atom}
      {a : Assembly} {k : Nat}, f.accepts (ps.length + 1 + count) = true → (∀ p ∈ ps, Program.height? 0 p = some 1) →
    Leads env ⟨arguments.furtherTokens ++ .char ')' :: ts, .operator :: .arguments :: below,
        t.assembled (a.withArguments f ps), k⟩
      ⟨ts, below, a.pushSelector (.call f (ps ++ t.post :: arguments.programs k)), k + arguments.roots⟩

theorem Branch.assembled_first (b : Branch) (a : Assembly) :
    b.assembled (a.pushMark .union) = a.withList b [] := by
  simp [assembled, Assembly.withList, Assembly.pushMark, listItems]

theorem Branch.assembled_next (b first : Branch) (done : List Branch) (a : Assembly) :
    b.assembled ((a.withList first done).pushMark .separator) = a.withList first (done ++ [b]) := by
  simp [assembled, Assembly.withList, Assembly.pushMark, listItems]

/-- A branch of one selector is the selector, where no path is on top. -/
theorem Branch.assembled_selector {a : Assembly} (h : a.Clear) (s : Selector) :
    (⟨none, [s]⟩ : Branch).assembled a = a.pushSelector s :=
  (Assembly.pushSelector_of_clear h s).symm

section heads

theorem endsName_pathTokens (path : List (Segment env)) {ts : List Token} (he : EndsName ts) :
    EndsName (pathTokens path ++ ts) := by
  cases path with
  | nil => exact he
  | cons s path =>
    intro t ht
    refine .inr ?_
    cases s <;> obtain rfl := Option.some.inj ht <;> rfl

theorem stops_tailTokens (tail : Tail env (Primary env)) {ts : List Token} (hs : Stops ts) :
    Stops (tailTokens tail ++ ts) := by
  cases tail with
  | done => exact hs
  | likes r rest => exact .likes _
  | binary op rest => exact .binary op _

/-- A token that an expression can start with. -/
def StartsOperand (t : Token) : Prop := Text.isSpace t.first = false ∧ t.first ≠ '=' ∧ t.first ≠ ')'

theorem BareName.startsOperand (n : BareName) : StartsOperand n.token :=
  have hp := n.first_plain
  ⟨isSpace_of_isDelimiter hp, ne_of_isDelimiter hp (by decide), ne_of_isDelimiter hp (by decide)⟩

theorem startsOperand_of_isDigit {t : Token} (h : t.first.isDigit = true) : StartsOperand t :=
  ⟨isSpace_of_isDigit h, ne_of_isDigit h rfl, ne_of_isDigit h rfl⟩

theorem Literal.startsOperand (l : Literal env) : StartsOperand l.token := by
  cases l with
  | text t => exact t.cases_quote (p := fun c => Text.isSpace c = false ∧ c ≠ '=' ∧ c ≠ ')') (by decide)
  | integer _ n _ =>
    have hmem : (digitsToken n).first ∈ Nat.toDigits 10 n := by
      rw [← text_digitsToken]
      exact List.mem_cons_self
    exact startsOperand_of_isDigit (isDigit_of_mem_toDigits hmem)
  | number n => exact startsOperand_of_isDigit n.unsigned.isDigit_head
  | keyword w => cases w <;> exact ⟨rfl, nofun, nofun⟩
  | json j =>
    show Text.isSpace j.first = false ∧ j.first ≠ '=' ∧ j.first ≠ ')'
    rcases j.container.opens with h | h <;> rw [h] <;> decide

theorem phraseTokens_eq (p : Phrase env (Primary env)) : ∃ t ts, phraseTokens p = t :: ts ∧ StartsOperand t := by
  cases p with
  | prefixed op rest => exact ⟨_, _, rfl, by cases op <;> exact ⟨rfl, by decide, by decide⟩⟩
  | group inner tail => exact ⟨_, _, rfl, rfl, by decide, by decide⟩
  | operand q tail =>
    cases q with
    | root path => exact ⟨_, _, rfl, rfl, by decide, by decide⟩
    | current path => exact ⟨_, _, rfl, rfl, by decide, by decide⟩
    | call f arguments h path => exact ⟨_, _, rfl, f.name.startsOperand⟩
    | literal l => exact ⟨_, _, rfl, l.startsOperand⟩

end heads

section cases

variable {ts : List Token} {below : List Mode} {a : Assembly} {k : Nat}

theorem endsElement_othersTokens (others : List (Element env)) (ts : List Token) :
    ∃ t us, othersTokens others ++ .char ']' :: ts = t :: us ∧ EndsElement t := by
  cases others with
  | nil => exact ⟨_, _, rfl, .inl rfl⟩
  | cons e others => exact ⟨_, _, rfl, .inr rfl⟩

/-- The inside of a bracket list, and its end. -/
theorem leads_list {first : Element env} {others : List (Element env)} (he : first.Reads) (ho : OthersRead others) :
    Leads env ⟨first.tokens ++ (othersTokens others ++ .char ']' :: ts), .element :: .elementEnd :: below,
        a.pushMark .union, k⟩
      ⟨ts, below, a.pushPath (bracketSelectors (first.branch k) (othersBranches (k + first.roots) others)),
        k + (first.roots + othersRoots others)⟩ := by
  obtain ⟨t, us, hus, ht⟩ := endsElement_othersTokens others ts
  have hfirst : Leads env ⟨first.tokens ++ t :: us, .element :: .elementEnd :: below, a.pushMark .union, k⟩
      ⟨t :: us, .elementEnd :: below, a.withList (first.branch k) [], k + first.roots⟩ := by
    rw [← Branch.assembled_first]
    exact he ht (a.clear_pushMark _)
  rw [← hus] at hfirst
  rw [← Nat.add_assoc]
  exact hfirst.trans ho

theorem Segment.reads_member (n : MemberName) : (Segment.member n : Segment env).Reads := by
  intro ts mode below a p k ho he
  exact (leads_dot ho (n.first_ne (by decide) (by decide))).trans (leads_dotName n he)

theorem Segment.reads_wildcard : (Segment.wildcard : Segment env).Reads := by
  intro ts mode below a p k ho _
  have hne : (Token.char '*').first ≠ '.' := by decide
  exact (leads_dot ho hne).trans leads_star

theorem Segment.reads_deepMember (n : MemberName) : (Segment.deepMember n : Segment env).Reads := by
  intro ts mode below a p k ho he
  have hdots : Leads env ⟨⟨'.', ['.'], false⟩ :: n.token :: ts, mode :: below, a.withPath p, k⟩
      ⟨n.token :: ts, .dotName :: mode :: below, a.withPath (p ++ [.descend]), k⟩ :=
    leads_dots ho (n.first_ne (by decide) (by decide))
  have hname := hdots.trans (leads_dotName n he)
  simpa [Segment.tokens, Segment.selectors, Segment.roots] using hname

theorem Segment.reads_deepWildcard : (Segment.deepWildcard : Segment env).Reads := by
  intro ts mode below a p k ho _
  have hdots : Leads env ⟨⟨'.', ['.'], false⟩ :: .char '*' :: ts, mode :: below, a.withPath p, k⟩
      ⟨.char '*' :: ts, .dotName :: mode :: below, a.withPath (p ++ [.descend]), k⟩ :=
    leads_dots ho (by decide)
  have hstar := hdots.trans leads_star
  simpa [Segment.tokens, Segment.selectors, Segment.roots] using hstar

theorem Segment.reads_deepList {first : Element env} {others : List (Element env)} (he : first.Reads)
    (ho : OthersRead others) : (Segment.deepList first others).Reads := by
  intro ts mode below a p k hm _
  have hopen : Leads env
      ⟨⟨'.', ['.', '['], false⟩ :: (first.tokens ++ (othersTokens others ++ .char ']' :: ts)), mode :: below,
        a.withPath p, k⟩
      ⟨first.tokens ++ (othersTokens others ++ .char ']' :: ts), .element :: .elementEnd :: mode :: below,
        (a.withPath (p ++ [.descend])).pushMark .union, k⟩ := leads_openDeepList hm
  have hlist := hopen.trans (leads_list he ho)
  simpa [Segment.tokens, Segment.selectors, Segment.roots] using hlist

theorem Segment.reads_list {first : Element env} {others : List (Element env)} (he : first.Reads)
    (ho : OthersRead others) : (Segment.list first others).Reads := by
  intro ts mode below a p k hm _
  have hopen : Leads env
      ⟨.char '[' :: (first.tokens ++ (othersTokens others ++ .char ']' :: ts)), mode :: below, a.withPath p, k⟩
      ⟨first.tokens ++ (othersTokens others ++ .char ']' :: ts), .element :: .elementEnd :: mode :: below,
        (a.withPath p).pushMark .union, k⟩ := leads_openList hm
  have hlist := hopen.trans (leads_list he ho)
  simpa [Segment.tokens, Segment.selectors, Segment.roots] using hlist

theorem pathReads_nil : PathReads ([] : List (Segment env)) := by
  intro ts mode below a p k _ _
  rw [pathSelectors, List.append_nil]
  exact .refl _

theorem pathReads_cons {s : Segment env} {path : List (Segment env)} (hs : s.Reads) (hp : PathReads path) :
    PathReads (s :: path) := by
  intro ts mode below a p k ho he
  have hstep : Leads env ⟨s.tokens ++ (pathTokens path ++ ts), mode :: below, a.withPath p, k⟩
      ⟨pathTokens path ++ ts, mode :: below, a.withPath (p ++ s.selectors k), k + s.roots⟩ :=
    hs ho (endsName_pathTokens path he)
  have hpath := hstep.trans (hp ho he)
  simpa [pathTokens, pathSelectors, pathRoots, Nat.add_assoc] using hpath

variable {path : List (Segment env)}

/-- The rest of an element that is a path. -/
theorem leads_elementPath (hp : PathReads path) {t : Token} (ht : EndsElement t) {p : List Selector} :
    Leads env ⟨pathTokens path ++ t :: ts, .path :: .elementEnd :: below, a.withPath p, k⟩
      ⟨t :: ts, .elementEnd :: below, a.withPath (p ++ pathSelectors k path), k + pathRoots path⟩ :=
  (hp .path (ht.stops ts).endsName).trans (leads_elementEnd .path ht)

theorem Element.reads_member (n : ElementName) (hp : PathReads path) : (Element.member n path).Reads := by
  intro t ts below a k ht ha
  have hname : Leads env
      ⟨n.token :: (pathTokens path ++ t :: ts), .element :: .elementEnd :: below, a, k⟩
      ⟨pathTokens path ++ t :: ts, .path :: .elementEnd :: below, a.withPath [.member n.value], k⟩ := by
    rw [← Assembly.pushSelector_of_clear ha]
    exact leads_elementName n (endsName_pathTokens path (ht.stops ts).endsName)
  exact hname.trans (leads_elementPath hp ht)

theorem Element.reads_wildcard (hp : PathReads path) : (Element.wildcard path).Reads := by
  intro t ts below a k ht ha
  have hstar : Leads env
      ⟨.char '*' :: (pathTokens path ++ t :: ts), .element :: .elementEnd :: below, a, k⟩
      ⟨pathTokens path ++ t :: ts, .path :: .elementEnd :: below, a.withPath [.wildcard], k⟩ := by
    rw [← Assembly.pushSelector_of_clear ha]
    exact leads_elementStar
  exact hstar.trans (leads_elementPath hp ht)

theorem Element.reads_index (i : Integer) : (Element.index i : Element env).Reads := by
  intro t ts below a k ht ha
  rw [Element.branch, Branch.assembled_selector ha]
  exact leads_index i ht.first

theorem Element.reads_slice (s : SliceText) : (Element.slice s : Element env).Reads := by
  intro t ts below a k ht ha
  rw [Element.branch, Branch.assembled_selector ha]
  exact leads_slice s ht.first

theorem Element.reads_root (hp : PathReads path) : (Element.root path).Reads := by
  intro t ts below a k ht ha
  rw [Element.roots, ← Nat.add_assoc]
  exact leads_elementRoot.trans (leads_elementPath hp ht)

theorem Element.reads_current (hp : PathReads path) : (Element.current path).Reads := by
  intro t ts below a k ht ha
  exact leads_elementCurrent.trans (leads_elementPath hp ht)

theorem Element.reads_filter {test : Phrase env (Primary env)} (ht : PhraseReads test) :
    (Element.filter test).Reads := by
  intro t ts below a k he ha
  have htest : Leads env
      ⟨phraseTokens test ++ t :: ts, .operand :: .operator :: .filterEnd :: .elementEnd :: below,
        a.openScope .filter, k⟩
      ⟨t :: ts, .operator :: .filterEnd :: .elementEnd :: below,
        (phraseAtoms k test).tree.assembled (a.openScope .filter), k + phraseRoots test⟩ :=
    ht (he.stops ts) accepts_id (prepared_id _) (firm_scope _)
  rw [Element.branch, Branch.assembled_selector ha]
  exact leads_openFilter.trans (htest.trans ((leads_elementEnd .operator he).trans (leads_closeFilter _ he)))

theorem othersRead_nil : OthersRead ([] : List (Element env)) := by
  intro ts below a first done k
  rw [othersBranches, List.append_nil]
  exact leads_closeList first done

theorem othersRead_cons {e : Element env} {others : List (Element env)} (he : e.Reads) (ho : OthersRead others) :
    OthersRead (e :: others) := by
  intro ts below a first done k
  obtain ⟨t, us, hus, ht⟩ := endsElement_othersTokens others ts
  have hnext : Leads env
      ⟨.char ',' :: (e.tokens ++ t :: us), .elementEnd :: below, a.withList first done, k⟩
      ⟨t :: us, .elementEnd :: below, a.withList first (done ++ [e.branch k]), k + e.roots⟩ := by
    rw [← Branch.assembled_next]
    exact leads_separator.trans (he ht (Assembly.clear_pushMark _ _))
  rw [← hus] at hnext
  have hall := hnext.trans ho
  simpa [othersTokens, othersBranches, othersRoots, Nat.add_assoc] using hall

theorem Primary.reads_root (hp : PathReads path) : (Primary.root path).Reads := by
  intro ts below a k hs
  rw [Primary.roots, ← Nat.add_assoc]
  exact leads_operandRoot.trans (hp .operator hs.endsName)

theorem Primary.reads_current (hp : PathReads path) : (Primary.current path).Reads := by
  intro ts below a k hs
  exact leads_operandCurrent.trans (hp .operator hs.endsName)

theorem Primary.reads_literal (l : Literal env) : (Primary.literal l : Primary env).Reads := by
  intro ts below a k hs
  exact leads_literal l hs

theorem stops_furtherTokens {count : Nat} (arguments : Arguments env count) (ts : List Token) :
    Stops (arguments.furtherTokens ++ .char ')' :: ts) := by
  cases arguments with
  | nil => exact .close (.inl rfl) ts
  | cons first others => exact .close (.inr (.inr rfl)) _

theorem Arguments.reads_nil : (Arguments.nil : Arguments env 0).Reads where
  all hf := leads_noArguments hf
  further hf hp := leads_closeCall hf hp

section

variable {count : Nat} {first : Phrase env (Primary env)} {others : Arguments env count}

/-- An argument behind some that are complete, and what follows it in the call. -/
theorem leads_argument {f : Function} {ps : List Program} (hfirst : PhraseReads first) (ho : others.Reads)
    (hf : f.accepts (ps.length + (count + 1)) = true) (hp : ∀ p ∈ ps, Program.height? 0 p = some 1) :
    Leads env ⟨phraseTokens first ++ (others.furtherTokens ++ .char ')' :: ts),
        .operand :: .operator :: .arguments :: below, a.withArguments f ps, k⟩
      ⟨ts, below, a.pushSelector (.call f (ps ++ (Arguments.cons first others).programs k)),
        k + (Arguments.cons first others).roots⟩ := by
  have hargument : Leads env ⟨phraseTokens first ++ (others.furtherTokens ++ .char ')' :: ts),
        .operand :: .operator :: .arguments :: below, a.withArguments f ps, k⟩
      ⟨others.furtherTokens ++ .char ')' :: ts, .operator :: .arguments :: below,
        (phraseAtoms k first).tree.assembled (a.withArguments f ps), k + phraseRoots first⟩ :=
    hfirst (stops_furtherTokens others ts) accepts_id (prepared_id _) (firm_scope _)
  rw [Arguments.roots, ← Nat.add_assoc]
  refine hargument.trans (ho.further ?_ hp)
  rwa [Nat.add_assoc, Nat.add_comm 1]

theorem Arguments.reads_cons (hfirst : PhraseReads first) (ho : others.Reads) :
    (Arguments.cons first others).Reads where
  all := by
    intro ts below f a k hf
    obtain ⟨t, us, ht, hspace, -, hparen⟩ := phraseTokens_eq first
    have hstart : Leads env ⟨phraseTokens first ++ (others.furtherTokens ++ .char ')' :: ts),
          .firstArgument :: .arguments :: below, a.openScope (.call f), k⟩
        ⟨phraseTokens first ++ (others.furtherTokens ++ .char ')' :: ts),
          .operand :: .operator :: .arguments :: below, a.withArguments f [], k⟩ := by
      rw [ht]
      exact leads_firstArgument hspace hparen
    rw [Arguments.tokens, List.append_assoc]
    exact hstart.trans (leads_argument hfirst ho (by simpa using hf) (by simp))
  further := by
    intro ts below f ps t a k hf hp
    rw [Arguments.furtherTokens, List.cons_append, List.append_assoc]
    rw [List.append_cons ps]
    refine (leads_nextArgument t).trans (leads_argument hfirst ho ?_ (Assembly.height?_append_post hp t))
    rwa [List.length_append]

end

theorem Primary.reads_call {count : Nat} {f : Callee env} {arguments : Arguments env count} (ha : arguments.Reads)
    (h : f.function.accepts count = true) (hp : PathReads path) : (Primary.call f arguments h path).Reads := by
  intro ts below a k hs
  have hcall : Leads env ⟨f.name.token :: .char '(' :: (arguments.tokens ++ .char ')' :: (pathTokens path ++ ts)),
        .operand :: .operator :: below, a, k⟩
      ⟨pathTokens path ++ ts, .operator :: below,
        (a.push .current).withPath [.call f.function (arguments.programs k)], k + arguments.roots⟩ :=
    (leads_operandCall f).trans (ha.all h)
  rw [Primary.tokens, List.cons_append, List.cons_append, List.append_assoc, List.cons_append, Primary.roots,
    ← Nat.add_assoc]
  exact hcall.trans (hp .operator hs.endsName)

theorem phraseReads_prefixed {op : PrefixOp} {rest : Phrase env (Primary env)} (hr : PhraseReads rest) :
    PhraseReads (.prefixed op rest) := by
  intro ts below f a b k hs hf hp ha
  exact (leads_prefixOp op).trans (hr hs (hf.prefixed op) (hp.prefixed op) ha)

theorem phraseReads_operand {q : Primary env} {tail : Tail env (Primary env)} (hq : q.Reads) (ht : TailReads tail) :
    PhraseReads (.operand q tail) := by
  intro ts below f a b k hs hf hp ha
  have hoperand : Leads env ⟨q.tokens ++ (tailTokens tail ++ ts), .operand :: .operator :: below, b, k⟩
      ⟨tailTokens tail ++ ts, .operator :: below, (f (.operand (q.atom k))).assembled a, k + q.roots⟩ := by
    rw [hp]
    exact hq (stops_tailTokens tail hs)
  rw [phraseTokens, List.append_assoc, phraseRoots, ← Nat.add_assoc]
  exact hoperand.trans (ht hs (hf _ (.operand _) (Nat.zero_le _)) ha)

theorem phraseReads_group {inner : Phrase env (Primary env)} {tail : Tail env (Primary env)} (hi : PhraseReads inner)
    (ht : TailReads tail) : PhraseReads (.group inner tail) := by
  intro ts below f a b k hs hf hp ha
  have hinner : Leads env
      ⟨phraseTokens inner ++ .char ')' :: (tailTokens tail ++ ts), .operand :: .operator :: below, b.openGroup, k⟩
      ⟨.char ')' :: (tailTokens tail ++ ts), .operator :: below, (phraseAtoms k inner).tree.assembled b.openGroup,
        k + phraseRoots inner⟩ :=
    hi (.close (.inl rfl) _) accepts_id (prepared_id _) (firm_group _)
  have hgroup := hinner.trans (leads_closeGroup _)
  rw [← hp] at hgroup
  have hconforms : (phraseAtoms k inner).tree.Conforms := (phraseAtoms k inner).tree_spec.1
  rw [phraseTokens, List.cons_append, List.append_assoc, phraseRoots, ← Nat.add_assoc]
  exact leads_openGroup.trans (hgroup.trans (ht hs (hf _ (.group hconforms) (Nat.zero_le _)) ha))

theorem Element.reads_computed {key : Phrase env (Primary env)} {tail : Tail env (Primary env)} (hk : PhraseReads key)
    (ht : TailReads tail) : (Element.computed key tail).Reads := by
  intro t ts below a k he ha
  have hkey : Leads env
      ⟨phraseTokens (.group key tail) ++ t :: ts, .operand :: .operator :: .computedEnd :: .elementEnd :: below,
        a.openScope .computed, k⟩
      ⟨t :: ts, .operator :: .computedEnd :: .elementEnd :: below,
        (phraseAtoms k (.group key tail)).tree.assembled (a.openScope .computed),
        k + phraseRoots (.group key tail)⟩ :=
    phraseReads_group hk ht (he.stops ts) accepts_id (prepared_id _) (firm_scope _)
  rw [Element.branch, Branch.assembled_selector ha]
  exact leads_openComputed.trans
    (hkey.trans ((leads_elementEnd .operator he).trans (leads_closeComputed _ he)))

theorem tailReads_done : TailReads (.done : Tail env (Primary env)) := by
  intro ts below t a k _ _ _
  exact .refl _

theorem tailReads_likes {r : PatternText env} {rest : Tail env (Primary env)} (hr : TailReads rest) :
    TailReads (.likes r rest) := by
  intro ts below t a k hs ht ha
  have hlikes : Leads env ⟨likesToken :: r.token :: (tailTokens rest ++ ts), .operator :: below, t.assembled a, k⟩
      ⟨tailTokens rest ++ ts, .operator :: below, (t.insert 2 (.likes r)).assembled a, k⟩ := by
    rw [likes_assembled ht ha]
    exact leads_likes r (stops_tailTokens rest hs)
  exact hlikes.trans (hr hs (likes_conforms ht r) ha)

theorem tailReads_binary {op : BinaryOp} {rest : Phrase env (Primary env)} (hr : PhraseReads rest) :
    TailReads (.binary op rest) := by
  intro ts below t a k hs ht ha
  obtain ⟨u, us, hu, -, hequal, -⟩ := phraseTokens_eq rest
  have hop : Leads env ⟨binaryToken op :: (phraseTokens rest ++ ts), .operator :: below, t.assembled a, k⟩
      ⟨phraseTokens rest ++ ts, .operand :: .operator :: below, (t.assembled a).pushOperator (.binary op), k⟩ := by
    rw [hu]
    exact leads_binary op hequal
  exact hop.trans (hr hs (accepts_binary ht op) (prepared_binary ht ha op) ha)

end cases

mutual

theorem Segment.reads : ∀ s : Segment env, s.Reads
  | .member n => Segment.reads_member n
  | .wildcard => Segment.reads_wildcard
  | .deepMember n => Segment.reads_deepMember n
  | .deepWildcard => Segment.reads_deepWildcard
  | .deepList first others => Segment.reads_deepList first.reads (othersRead others)
  | .list first others => Segment.reads_list first.reads (othersRead others)

theorem pathReads : ∀ path : List (Segment env), PathReads path
  | [] => pathReads_nil
  | s :: path => pathReads_cons s.reads (pathReads path)

theorem Element.reads : ∀ e : Element env, e.Reads
  | .member n path => Element.reads_member n (pathReads path)
  | .wildcard path => Element.reads_wildcard (pathReads path)
  | .index i => Element.reads_index i
  | .slice s => Element.reads_slice s
  | .filter test => Element.reads_filter (phraseReads test)
  | .computed key tail => Element.reads_computed (phraseReads key) (tailReads tail)
  | .root path => Element.reads_root (pathReads path)
  | .current path => Element.reads_current (pathReads path)

theorem othersRead : ∀ others : List (Element env), OthersRead others
  | [] => othersRead_nil
  | e :: others => othersRead_cons e.reads (othersRead others)

theorem Primary.reads : ∀ q : Primary env, q.Reads
  | .root path => Primary.reads_root (pathReads path)
  | .current path => Primary.reads_current (pathReads path)
  | .call _ arguments h path => Primary.reads_call arguments.reads h (pathReads path)
  | .literal l => Primary.reads_literal l

theorem phraseReads : ∀ p : Phrase env (Primary env), PhraseReads p
  | .prefixed _ rest => phraseReads_prefixed (phraseReads rest)
  | .operand q tail => phraseReads_operand q.reads (tailReads tail)
  | .group inner tail => phraseReads_group (phraseReads inner) (tailReads tail)

theorem tailReads : ∀ tail : Tail env (Primary env), TailReads tail
  | .done => tailReads_done
  | .likes _ rest => tailReads_likes (tailReads rest)
  | .binary _ rest => tailReads_binary (phraseReads rest)

theorem Arguments.reads : ∀ {count : Nat} (arguments : Arguments env count), arguments.Reads
  | _, .nil => Arguments.reads_nil
  | _, .cons first others => Arguments.reads_cons (phraseReads first) others.reads

end

end PathQuery.Syntax
