import PathQuery.Proofs.Query.Apart

namespace PathQuery

/-- Instructions yield as many values whatever the numbers of the occurrences of the root. -/
theorem Yields.of_renumber {f : Nat → Nat} {items : List Item} {n : Nat} (h : Yields (items.map (Item.renumber f)) n) :
    Yields items n := by
  induction items generalizing n with
  | nil => cases h; exact .nil
  | cons i items ih =>
    cases i with
    | mark m => cases h
    | instr i =>
      cases h with
      | instr _ h hi =>
        rw [Instr.operands_renumber] at hi ⊢
        exact (ih h).instr i hi

/-- The operators of an expression in which no parenthesis is open are settled behind their operands. -/
theorem Underway.settled {a : Assembly} (h : Underway 1 a.items a.pending) (hg : a.hasOpenGroup = false) :
    ∃ p : Program, a.settled = ⟨(p.map .instr).reverse, []⟩ ∧ p.height? 0 = some 1 := by
  obtain ⟨items, rest, hs, hu, hrest⟩ := h.settleAll_append Syntax.firm_nil []
  rw [List.append_nil, List.append_nil, List.append_nil, List.append_nil] at hs
  have hsettled : a.settled = ⟨items, rest⟩ := hs
  obtain rfl | ⟨others, rfl⟩ := hrest
  · obtain ⟨p, rfl, hp⟩ := hu.yields.program
    exact ⟨p, hsettled, hp⟩
  · have hopen : a.hasOpenGroup = true := (Assembly.hasOpenGroup_iff a).2 ⟨others, by rw [hsettled]⟩
    rw [hg] at hopen
    cases hopen

/-- What is around a filter on the document. -/
def listBase : Assembly := ⟨[.mark .union, .instr (.path [.root 0]), .instr .root], []⟩

/-- What is around the test of the filter. -/
def filterBase : Assembly := listBase.openScope .filter

/-- Lists that are the same up to the first element of a kind. -/
theorem eq_of_append_cons {α : Type} {isBorder : α → Bool} {xs ys xs' ys' : List α} {x y : α}
    (hxs : ∀ i ∈ xs, isBorder i = false) (hys : ∀ i ∈ ys, isBorder i = false) (hx : isBorder x = true)
    (hy : isBorder y = true) (h : xs ++ x :: xs' = ys ++ y :: ys') : xs = ys := by
  induction xs generalizing ys with
  | nil =>
    cases ys with
    | nil => rfl
    | cons j ys =>
      obtain ⟨rfl, -⟩ := List.cons.inj h
      rw [hys x List.mem_cons_self] at hx
      cases hx
  | cons i xs ih =>
    cases ys with
    | nil =>
      obtain ⟨rfl, -⟩ := List.cons.inj h
      rw [hxs i List.mem_cons_self] at hy
      cases hy
    | cons j ys =>
      obtain ⟨rfl, htail⟩ := List.cons.inj h
      rw [ih (fun k hk => hxs k (List.mem_cons_of_mem _ hk)) (fun k hk => hys k (List.mem_cons_of_mem _ hk)) htail]

/-- Behind an operand in the test of a filter stands an expression, and nothing else. -/
theorem underway_of_filter {f : Nat → Nat} {a : Assembly} (h : Phase.complete.In [.filter, .list] (filterBase.atop f a))
    (hl : Laid [.filter, .list] (filterBase.atop f a)) : Underway 1 a.items a.pending := by
  obtain ⟨b, items, pending, hb, hc, he⟩ := h
  have hcomplete : Complete (some .filter) items pending := hc
  have hu : Underway 1 items pending := hcomplete.underway (by nofun)
  cases hb with
  | @construct _ _ around _ behind waits _ _ hbegins =>
    cases hbegins
    have hitems : a.items.map (Item.renumber f) ++ .mark .filter :: filterBase.items.tail =
        items ++ .mark .filter :: (around.under behind waits).items := congrArg Assembly.items he
    have hpending : a.pending ++ [.scope] = pending ++ .scope :: (around.under behind waits).pending :=
      congrArg Assembly.pending he
    have hmarks : ∀ i ∈ a.items.map (Item.renumber f), i.isFilter = false := by
      have hcount := hl.layout.countP_opens
      rw [Assembly.atop, Assembly.under, List.countP_append] at hcount
      have hzero : (a.items.map (Item.renumber f)).countP Item.opens = 0 :=
        Nat.add_right_cancel (hcount.trans (Nat.zero_add 2).symm)
      intro i hi
      have hopens := List.countP_eq_zero.1 hzero i hi
      cases hfilter : i.isFilter with
      | false => rfl
      | true => simp [Item.opens, hfilter] at hopens
    have hinstr : ∀ i ∈ items, i.isFilter = false := by
      obtain ⟨p, rfl, -⟩ := hu.yields.program
      intro i hi
      obtain ⟨instr, -, rfl⟩ := List.mem_map.1 (List.mem_reverse.1 hi)
      rfl
    have hscopes : ∀ w ∈ a.pending, w.isScope = false := by
      have hcount := hl.waits.countP_isScope
      rw [Assembly.atop, Assembly.under, List.countP_append] at hcount
      have hzero : a.pending.countP Pending.isScope = 0 := Nat.add_right_cancel (hcount.trans (Nat.zero_add 1).symm)
      intro w hw
      exact Bool.eq_false_iff.2 (List.countP_eq_zero.1 hzero w hw)
    have hwithin : ∀ w ∈ pending, w.isScope = false := by
      intro w hw
      cases w with
      | scope => exact absurd hw hu.within
      | _ => rfl
    obtain rfl := eq_of_append_cons hmarks hinstr rfl rfl hitems
    obtain rfl := eq_of_append_cons hscopes hwithin rfl rfl hpending
    exact ⟨hu.yields.of_renumber, hu.within⟩

namespace Machine

variable {m n k part : Machine} {env : Env} {below : List Mode} {mode : Mode} {c : Char} {rest : List Char}

/-- What ends an argument. -/
def EndsExpression (c : Char) : Prop := c = ',' ∨ c = ')'

/-- What a mode leaves before the end of an argument, it leaves before a bracket, unless it looks for the end of the
arguments. -/
theorem step_before_bracket (hc : EndsExpression c) (hr : m.rest = c :: rest) (hk : k.rest = c :: rest)
    (hm : m.modes = mode :: below) (hfirst : mode ≠ .firstArgument) (hop : mode = .operator → c = ',')
    (h : m.step env = .ok k) (position : Text.Position) :
    (m.movedTo [']'] position).step env = .ok (k.movedTo [']'] position) := by
  have hshorter : rest ≠ c :: rest := fun h => by simpa using congrArg List.length h
  have hm' : (m.movedTo [']'] position).modes = mode :: below := hm
  have hr' : (m.movedTo [']'] position).rest = [']'] := rfl
  have consumed : ∀ {j : Machine}, j.rest = rest → (.ok j : Except SyntaxError Machine) ≠ .ok k := by
    intro j hj he
    cases he
    exact hshorter (hj.symm.trans hk)
  rw [step_cons hm, stepIn.eq_def, hr] at h
  rw [step_cons hm', stepIn.eq_def, hr']
  cases mode with
  | bareName use read =>
    obtain rfl | rfl := hc
    all_goals
      cases h
      cases use <;> rfl
  | path =>
    obtain rfl | rfl := hc <;> cases h
    rfl
  | dot | descent | integer | digits | less | greater =>
    obtain rfl | rfl := hc
    all_goals
      cases h
      rfl
  | boundEnd bound read =>
    obtain rfl | rfl := hc
    · obtain ⟨s, rfl, hread⟩ := readBoundEnd_of_end (.inr rfl) h
      exact hread _ ']' [] (.inl rfl)
    · cases h
  | filterEnd | computedEnd =>
    obtain rfl | rfl := hc
    · obtain ⟨a, ha, rfl⟩ := attempt_goto_ok h
      exact congrArg (Except.map (·.goto below)) (attempt_of_ok (m := m.movedTo [']'] position) ha)
    · cases h
  | operator =>
    obtain rfl := hop rfl
    cases h
    rfl
  | number read =>
    replace h : m.endNumber env below read = .ok k := by obtain rfl | rfl := hc <;> exact h
    show (m.movedTo [']'] position).endNumber env below read = _
    rw [endNumber] at h ⊢
    split at h <;> cases h
    rfl
  | operandName name =>
    replace h : m.endOperandName below name = .ok k := by obtain rfl | rfl := hc <;> exact h
    show (m.movedTo [']'] position).endOperandName below name = _
    rw [endOperandName] at h ⊢
    split at h <;> cases h
    rfl
  | patternEnd read =>
    replace h : m.endPattern env below read false = .ok k := by obtain rfl | rfl := hc <;> exact h
    show (m.movedTo [']'] position).endPattern env below read false = _
    rw [endPattern] at h ⊢
    split at h <;> cases h
    rfl
  | json | jsonString | jsonEscape | pattern | patternEscape =>
    obtain rfl | rfl := hc <;> exact absurd h (consumed rfl)
  | quoted quote use read =>
    replace h : m.readQuoted below quote use read (c :: rest) = .ok k := h
    rw [readQuoted] at h
    split_ifs at h <;> refine absurd h (consumed ?_)
    · exact endQuoted_rest use read
    · rfl
    · rfl
  | escape quote use read e =>
    replace h : m.readEscape below quote use read e (c :: rest) = .ok k := h
    simp only [readEscape] at h
    cases he : e.next Text.nameEscape? c with
    | more e =>
      rw [he] at h
      exact absurd h (consumed rfl)
    | char d =>
      rw [he] at h
      exact absurd h (consumed rfl)
    | unknown | stray =>
      rw [he] at h
      cases h
    | lone =>
      rw [he] at h
      cases e <;> cases h
  | elementEnd =>
    obtain rfl | rfl := hc
    · exact absurd h (consumed rfl)
    · cases h
  | arguments =>
    obtain rfl | rfl := hc
    all_goals
      obtain ⟨a, -, rfl⟩ := attempt_goto_ok h
      exact absurd rfl (consumed rfl)
  | firstArgument => exact absurd rfl hfirst
  | start | queryCall | dotName | element | operand | equal | notEqual | or | and | patternStart =>
    obtain rfl | rfl := hc <;> cases h

/-- Behind the arguments of a call the character that ends one is read at once. -/
theorem Reaches.eq_of_arguments (hc : EndsExpression c) (h : Reaches env k n) (hm : k.modes = .arguments :: below)
    (hr : k.rest = c :: rest) (hn : n.rest = c :: rest) : n = k := by
  cases h with
  | refl => rfl
  | @step _ j _ hs hreach =>
    have hj : j.rest = rest := by
      rw [step_cons hm, stepIn, hr] at hs
      obtain rfl | rfl := hc
      all_goals
        obtain ⟨a, -, rfl⟩ := attempt_goto_ok hs
        rfl
    have hlength := hreach.rest_suffix.length_le
    rw [hn, hj, List.length_cons] at hlength
    omega

/-- A parenthesis that closes nothing behind an operand ends the arguments. -/
theorem arguments_of_operator (hm : m.modes = .operator :: below) (hr : m.rest = ')' :: rest) (hk : k.rest = m.rest)
    (h : m.step env = .ok k) : k.modes.head? = some .arguments := by
  rw [step_cons hm, stepIn, hr, readOperator] at h
  rw [if_neg (by decide), if_neg (by decide), if_neg (by decide), if_pos rfl] at h
  split at h
  · rw [attempt] at h
    split at h
    · cases h
      have hlength := congrArg List.length hk
      simp [past, hr] at hlength
    · cases h
  · split at h
    · next hb =>
      cases h
      exact hb
    · cases h

/-- Before the end of an argument there is none, or the text is refused. -/
theorem arguments_of_firstArgument (hc : EndsExpression c) (hstep : m.InStep) (hm : m.modes = .firstArgument :: below)
    (hr : m.rest = c :: rest) (h : m.step env = .ok k) :
    k.modes.head? = some .arguments ∨ k.modes.head? ≠ some .operator ∧ ∀ j, k.step env ≠ .ok j := by
  rw [step_cons hm, stepIn, hr] at h
  obtain rfl | rfl := hc
  · cases h
    refine .inr ⟨by rintro ⟨⟩, ?_⟩
    intro j hj
    have hmodes : (m.goto (.operand :: .operator :: below)).modes = .operand :: .operator :: below := rfl
    rw [step_cons hmodes, stepIn, goto_rest, hr] at hj
    cases hj
  · cases h
    have hchained := hstep.chained
    rw [roles, hm] at hchained
    cases below with
    | nil =>
      refine .inr ⟨by rintro ⟨⟩, ?_⟩
      intro j hj
      rw [step_nil rfl] at hj
      cases hj
    | cons mode below =>
      have hgives : Phase.argument.gives mode.role.needs = true := (List.isChain_cons_cons.1 hchained).1
      have hrole : mode.role = .arguments := by
        cases hr : mode.role <;> rw [hr] at hgives <;> first | rfl | cases hgives
      rw [mode_of_role.2.2 hrole]
      exact .inl rfl

/-- Where an expression is read up to the end of an argument, it is read up to a bracket that stands there instead. -/
theorem Reaches.before_bracket (h : Reaches env m n) (hm : m.InStep) (hc : EndsExpression c) (hn : n.rest = c :: rest)
    (ho : ∃ below, n.modes = .operator :: below) (text : List Char) (position : Text.Position)
    (hr : m.rest = text ++ c :: rest) :
    ∃ later, Reaches env (m.movedTo (text ++ [']']) position) (n.movedTo [']'] later) := by
  induction h generalizing text position with
  | refl m =>
    obtain rfl : text = [] := by simpa using hr.symm.trans hn
    exact ⟨position, .refl _⟩
  | @step m k n hs hreach ih =>
    have hk := hm.step hs
    cases text with
    | cons d text =>
      have hnext : ((d :: text) ++ [']']).head? = m.rest.head? := by
        rw [hr]
        rfl
      obtain ⟨past, later, hrest, hstep⟩ := step_movedTo hnext hs position
      rw [hr] at hrest
      cases past with
      | false =>
        obtain ⟨end', hend⟩ := ih hk hn ho (d :: text) later (hrest.trans hr)
        exact ⟨end', .step hstep hend⟩
      | true =>
        obtain ⟨end', hend⟩ := ih hk hn ho text later hrest
        exact ⟨end', .step hstep hend⟩
    | nil =>
      rw [List.nil_append] at hr
      have hkr : k.rest = c :: rest := by
        obtain hsame | ⟨d, hd⟩ := rest_of_step hs
        · rw [hsame, hr]
        · have hlength := hreach.rest_suffix.length_le
          rw [hr] at hd
          rw [hn, ← (List.cons.inj hd).2, List.length_cons] at hlength
          omega
      have hne : m.modes ≠ [] := by
        intro hnil
        rw [step_nil hnil] at hs
        cases hs
      obtain ⟨mode, below, hmodes⟩ := List.exists_cons_of_ne_nil hne
      by_cases hends : k.modes.head? = some .arguments
      · obtain ⟨others, hothers⟩ : ∃ others, k.modes = .arguments :: others := by
          cases hkm : k.modes with
          | nil => simp [hkm] at hends
          | cons mode others =>
            obtain rfl : mode = .arguments := by simpa [hkm] using hends
            exact ⟨others, rfl⟩
        obtain rfl := hreach.eq_of_arguments hc hothers hkr hn
        obtain ⟨others', ho⟩ := ho
        rw [hothers] at ho
        cases ho
      have hfirst : mode ≠ .firstArgument := by
        rintro rfl
        obtain harguments | ⟨hoperator, hstuck⟩ := arguments_of_firstArgument hc hm hmodes hr hs
        · exact hends harguments
        · cases hreach with
          | refl =>
            obtain ⟨others, ho⟩ := ho
            exact hoperator (congrArg List.head? ho)
          | step hj _ => exact hstuck _ hj
      have hop : mode = .operator → c = ',' := by
        rintro rfl
        obtain rfl | rfl := hc
        · rfl
        · exact absurd (arguments_of_operator hmodes hr (hkr.trans hr.symm) hs) hends
      obtain ⟨later, hlater⟩ := ih hk hn ho [] position hkr
      exact ⟨later, .step (step_before_bracket hc hr hkr hmodes hfirst hop hs position) hlater⟩

/-- The modes below the test of a filter on the document. -/
def filterModes : List Mode := [.filterEnd, .elementEnd, .path]

/-- What reads an expression on its own. -/
def expression (text : List Char) : Machine := ⟨text, .start, [.operand, .operator], .empty, 0⟩

/-- The text of an expression can stand as the test of a filter. -/
theorem Reaches.in_filter {text : List Char} (h : Reaches env (expression text) part) (hr : part.rest ≠ [])
    (hm : part.modes = [.operator]) :
    ∃ k, Reaches env (start ("$[?".toList ++ text)) k ∧ (part.above filterModes).Atop (1 + ·) filterBase [] k := by
  have hopened : ∃ k, Reaches env (start ("$[?".toList ++ text)) k ∧
      ((expression text).above filterModes).Atop (1 + ·) filterBase [] k :=
    ⟨_, .step rfl (.step rfl (.step rfl (.refl _))), (List.append_nil text).symm, rfl, rfl, rfl⟩
  obtain ⟨k, hk, hatop⟩ := hopened
  have hbegun : ((expression text).above filterModes).Begun := .inr ⟨rfl, _, rfl⟩
  obtain ⟨n, hn, hatop⟩ := (h.above filterModes).atop (f := (1 + ·)) hr (by simp [Machine.above, hm])
    (fun _ => Nat.add_assoc 1 _ 1) (Syntax.firm_scope []) (.inl hbegun) hatop
  exact ⟨n, hk.trans hn, hatop⟩

/-- An expression as the test of a filter, and the query around it. -/
theorem run_filter {later : Text.Position} {a : Assembly} {p : Program} {i : Nat}
    (hs : a.settled = ⟨(p.map .instr).reverse, []⟩) (hp : p.height? 0 = some 1) :
    run env ⟨[']'], later, .operator :: filterModes, filterBase.atop (1 + ·) a, i⟩ =
      .ok [.root, .path [.root 0, .filter (renumberProgram (1 + ·) p)]] := by
  have hitems : Program.ofItems ((renumberProgram (1 + ·) p).map .instr) = .ok (renumberProgram (1 + ·) p) :=
    Program.ofItems_map ((Program.height?_renumber 0 p).trans hp)
  have hscope : (filterBase.atop (1 + ·) a).closeScope =
      .ok ⟨((renumberProgram (1 + ·) p).map .instr).reverse ++ filterBase.items, []⟩ := by
    rw [Assembly.closeScope, Assembly.settled_atop (Syntax.firm_scope []), hs]
    simp [Assembly.atop, Assembly.under, filterBase, Assembly.openScope, listBase, renumberProgram_eq, Item.renumber,
      Function.comp_def]
  have hclose : (filterBase.atop (1 + ·) a).closeFilter =
      .ok (listBase.withPath [.filter (renumberProgram (1 + ·) p)]) := by
    have htake : Assembly.takeTo Item.isFilter ⟨((renumberProgram (1 + ·) p).map .instr).reverse ++ filterBase.items,
        []⟩ = .ok (.mark .filter, (renumberProgram (1 + ·) p).map .instr, listBase) :=
      Assembly.takeTo_program (fun _ => rfl) rfl (renumberProgram (1 + ·) p) listBase
    exact Assembly.closeExpression_of_taken hscope htake hitems
  have hfinish : Assembly.finish ⟨[.instr (.path [.root 0, .filter (renumberProgram (1 + ·) p)]), .instr .root], []⟩ =
      .ok [.root, .path [.root 0, .filter (renumberProgram (1 + ·) p)]] := Assembly.finish_withPath rfl _
  have hend : Machine.step ⟨[']'], later, .operator :: filterModes, filterBase.atop (1 + ·) a, i⟩ env =
      .ok ⟨[']'], later, filterModes, filterBase.atop (1 + ·) a, i⟩ := rfl
  have hfilter : Machine.step ⟨[']'], later, filterModes, filterBase.atop (1 + ·) a, i⟩ env =
      .ok ⟨[']'], later, [.elementEnd, .path], listBase.withPath [.filter (renumberProgram (1 + ·) p)], i⟩ := by
    show Except.map (·.goto [.elementEnd, .path])
      (attempt ⟨[']'], later, filterModes, filterBase.atop (1 + ·) a, i⟩ Assembly.closeFilter) = _
    rw [attempt_of_ok (m := ⟨[']'], later, filterModes, filterBase.atop (1 + ·) a, i⟩) hclose]
    rfl
  have hlist : Machine.step ⟨[']'], later, [.elementEnd, .path],
      listBase.withPath [.filter (renumberProgram (1 + ·) p)], i⟩ env =
      .ok ⟨[], later.after ']', [.path], ⟨[.instr (.path [.root 0, .filter (renumberProgram (1 + ·) p)]), .instr .root],
        []⟩, i⟩ := rfl
  rw [run_of_step hend, run_of_step hfilter, run_of_step hlist, run, if_pos (isFinished_iff.2 ⟨rfl, rfl⟩), hfinish]
  rfl

/-- An expression that has been read to the end of an argument is a program, which is the test of a filter with the same
text, but for the numbers of the occurrences of the root. -/
theorem Reaches.exists_program {text : List Char} (hc : EndsExpression c)
    (h : Reaches env (expression (text ++ c :: rest)) part) (hr : part.rest = c :: rest) (hm : part.modes = [.operator])
    (hg : part.assembly.hasOpenGroup = false) :
    ∃ p : Program, part.assembly.settled = ⟨(p.map .instr).reverse, []⟩ ∧ p.height? 0 = some 1 ∧
      (start ("$[?".toList ++ text ++ [']'])).run env =
        .ok [.root, .path [.root 0, .filter (renumberProgram (1 + ·) p)]] := by
  obtain ⟨k, hk, hatop⟩ := h.in_filter (by simp [hr]) hm
  have hkr : k.rest = c :: rest := by rw [hatop.rest, List.append_nil]; exact hr
  have hkm : k.modes = .operator :: filterModes := by rw [hatop.modes, Machine.above, hm]; rfl
  obtain ⟨later, hlater⟩ := hk.before_bracket (inStep_start _) hc hkr ⟨_, hkm⟩ ("$[?".toList ++ text) .start
    (by rw [List.append_assoc]; rfl)
  have hstart : (start ("$[?".toList ++ (text ++ c :: rest))).movedTo ("$[?".toList ++ text ++ [']']) .start =
      start ("$[?".toList ++ text ++ [']']) := rfl
  rw [hstart] at hlater
  have hroles : (k.movedTo [']'] later).roles = .operator :: [.filterEnd, .elementEnd, .path] := congrArg Mode.roles hkm
  have hphase := (hlater.inStep (inStep_start _)).phase hroles
  have hlaid := (hlater.keeps fitting_step (fitting_start _)).laid
  rw [hroles] at hlaid
  have hassembly : (k.movedTo [']'] later).assembly = filterBase.atop (1 + ·) part.assembly := hatop.assembly
  rw [hassembly] at hphase hlaid
  obtain ⟨p, hs, hp⟩ := (underway_of_filter hphase hlaid).settled hg
  refine ⟨p, hs, hp, ?_⟩
  have hk' : k.movedTo [']'] later =
      ⟨[']'], later, .operator :: filterModes, filterBase.atop (1 + ·) part.assembly, k.roots⟩ := by
    rw [movedTo, hkm, hatop.assembly]
    rfl
  rw [hlater.run, hk', run_filter hs hp]

end Machine

end PathQuery
