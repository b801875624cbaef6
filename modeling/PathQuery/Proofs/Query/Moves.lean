import Mathlib.Tactic.SplitIfs
import PathQuery.Proofs.Except
import PathQuery.Proofs.Query.Turn

namespace PathQuery

namespace Machine

variable {m n : Machine} {env : Env} {below : List Mode} {r : Role} {act : Act} {next : List Role}

theorem readStart_move (hm : m.modes = .start :: below) (hn : n.modes = .start :: below) :
    ∀ {text text'}, Heads text text' →
      OneMove m n text text' .start below none (m.readStart below text) (n.readStart below text')
  | _, _, .nil => oneMove_fail rfl
  | _, _, .cons c rest rest' => by
    rw [readStart, readStart]
    refine oneMove_ite (fun _ => oneMove_past hm hn) fun _ => ?_
    refine oneMove_ite (fun _ => ?_) fun _ => ?_
    · exact ⟨.take true .root (.path :: below), .take .queryRoot rfl rfl, rfl, rfl⟩
    refine oneMove_ite (fun _ => ?_) fun _ => oneMove_fail rfl
    exact ⟨.take false .skip (.bareName .query [] :: below), .take .queryName rfl rfl, rfl, rfl⟩

theorem endName_move {text text' : List Char} (use : BareUse) (read : List Char) :
    OneMove m n text text' (Mode.bareName use read).role below none (.ok (m.endName below use read))
      (.ok (n.endName below use read)) := by
  cases use with
  | member => exact ⟨.take false (.selector (.member _)) below, .take (.selector (.member _)) rfl rfl, rfl, rfl⟩
  | query => exact ⟨.take false .skip (.queryCall _ :: below), .take (.stay _) rfl rfl, rfl, rfl⟩
  | operand => exact ⟨.take false .skip (.operandName _ :: below), .take (.stay _) rfl rfl, rfl, rfl⟩

theorem readBareName_move (use : BareUse) (read : List Char) : ∀ {text text'}, Heads text text' →
    OneMove m n text text' (Mode.bareName use read).role below none (m.readBareName below use read text)
      (n.readBareName below use read text')
  | _, _, .nil => endName_move use read
  | _, _, .cons c rest rest' => by
    rw [readBareName, readBareName]
    refine oneMove_ite (fun _ => endName_move use read) fun _ => ?_
    refine ⟨.take true .skip (.bareName use (c :: read) :: below), ?_, rfl, rfl⟩
    cases use <;> exact .take (.stay _) rfl rfl

theorem readQueryCall_move {name : String} (hm : m.modes = .queryCall name :: below)
    (hn : n.modes = .queryCall name :: below) : ∀ {text text'}, Heads text text' →
      OneMove m n text text' .queryCall below none (m.readQueryCall env below name text)
        (n.readQueryCall env below name text')
  | _, _, .nil => oneMove_fail rfl
  | _, _, .cons c rest rest' => by
    rw [readQueryCall, readQueryCall]
    refine oneMove_ite (fun _ => oneMove_past hm hn) fun _ => ?_
    exact oneMove_ite (fun _ => openCall_move .queryCall rfl) fun _ => oneMove_fail rfl

theorem readPath_move (hm : m.modes = .path :: below) (hn : n.modes = .path :: below) :
    ∀ {text text'}, Heads text text' →
      OneMove m n text text' .path below none (m.readPath below text) (n.readPath below text')
  | _, _, .nil => oneMove_fail rfl
  | _, _, .cons c rest rest' => by
    rw [readPath, readPath]
    refine oneMove_ite (fun _ => oneMove_past hm hn) fun _ => ?_
    refine oneMove_ite (fun _ => ?_) fun _ => ?_
    · exact ⟨.take true .skip (.dot :: .path :: below), .take .pathStep rfl rfl, rfl, rfl⟩
    refine oneMove_ite (fun _ => ?_) fun _ => ?_
    · exact ⟨.take true .openUnion (.element :: .elementEnd :: .path :: below), .take .pathList rfl rfl, rfl, rfl⟩
    refine oneMove_ite (fun _ => ?_) fun _ => oneMove_fail rfl
    exact ⟨.take false .skip below, .take .pathEnd rfl rfl, rfl, rfl⟩

theorem readDot_move : ∀ {text text'}, Heads text text' →
    OneMove m n text text' .selector below none (m.readDot below text) (n.readDot below text')
  | _, _, .nil => ⟨.take false .skip (.dotName :: below), .take (.stay _) rfl rfl, rfl, rfl⟩
  | _, _, .cons c rest rest' => by
    rw [readDot, readDot]
    refine oneMove_ite (fun _ => ?_) fun _ => ?_
    · exact ⟨.take true (.selector .descend) (.descent :: below), .take .descent rfl rfl, rfl, rfl⟩
    · exact ⟨.take false .skip (.dotName :: below), .take (.stay _) rfl rfl, rfl, rfl⟩

theorem readDescent_move : ∀ {text text'}, Heads text text' →
    OneMove m n text text' .selector below none (m.readDescent below text) (n.readDescent below text')
  | _, _, .nil => oneMove_fail rfl
  | _, _, .cons c rest rest' => by
    rw [readDescent, readDescent]
    refine oneMove_ite (fun _ => ?_) fun _ => ?_
    · exact ⟨.take true .openUnion (.element :: .elementEnd :: below), .take .descentList rfl rfl, rfl, rfl⟩
    · exact ⟨.take false .skip (.dotName :: below), .take (.stay _) rfl rfl, rfl, rfl⟩

theorem readDotName_move (hm : m.modes = .dotName :: below) (hn : n.modes = .dotName :: below) :
    ∀ {text text'}, Heads text text' →
      OneMove m n text text' .selector below none (m.readDotName below text) (n.readDotName below text')
  | _, _, .nil => oneMove_fail rfl
  | _, _, .cons c rest rest' => by
    rw [readDotName, readDotName]
    refine oneMove_ite (fun _ => oneMove_past hm hn) fun _ => ?_
    refine oneMove_ite (fun _ => ?_) fun _ => ?_
    · exact ⟨.take true (.selector .wildcard) below, .take (.selector .wildcard) rfl rfl, rfl, rfl⟩
    refine oneMove_ite (fun _ => ?_) fun _ => ?_
    · exact ⟨.take true .skip (.quoted c .member [] :: below), .take (.stay _) rfl rfl, rfl, rfl⟩
    refine oneMove_ite (fun _ => oneMove_fail rfl) fun _ => ?_
    exact ⟨.take false .skip (.bareName .member [] :: below), .take (.stay _) rfl rfl, rfl, rfl⟩

theorem endQuoted_move {c : Char} {rest rest' : List Char} (quote : Char) (use : QuotedUse) (read : List Char) :
    OneMove m n (c :: rest) (c :: rest') (Mode.quoted quote use read).role below none
      (.ok ((m.past c rest).endQuoted below use read)) (.ok ((n.past c rest').endQuoted below use read)) := by
  cases use with
  | member => exact ⟨.take true (.selector (.member _)) below, .take (.selector (.member _)) rfl rfl, rfl, rfl⟩
  | literal => exact ⟨.take true (.literal _) below, .take (.literal _) rfl rfl, rfl, rfl⟩

theorem readQuoted_move (quote : Char) (use : QuotedUse) (read : List Char) : ∀ {text text'}, Heads text text' →
    OneMove m n text text' (Mode.quoted quote use read).role below none (m.readQuoted below quote use read text)
      (n.readQuoted below quote use read text')
  | _, _, .nil => oneMove_fail rfl
  | _, _, .cons c rest rest' => by
    have ht : ∀ read', Turn (Mode.quoted quote use read).role .skip [(Mode.quoted quote use read').role] := by
      intro read'
      cases use <;> exact .stay _
    rw [readQuoted, readQuoted]
    refine oneMove_ite (fun _ => endQuoted_move quote use read) fun _ => ?_
    refine oneMove_ite (fun _ => ?_) fun _ => ?_
    · refine ⟨.take true .skip (.escape quote use read .backslash :: below), ?_, rfl, rfl⟩
      cases use <;> exact .take (.stay _) rfl rfl
    · exact ⟨.take true .skip (.quoted quote use (c :: read) :: below), .take (ht _) rfl rfl, rfl, rfl⟩

theorem readEscape_move (quote : Char) (use : QuotedUse) (read : List Char) (e : Text.Escape) :
    ∀ {text text'}, Heads text text' →
      OneMove m n text text' (Mode.escape quote use read e).role below none (m.readEscape below quote use read e text)
        (n.readEscape below quote use read e text')
  | _, _, .nil => oneMove_fail (by split <;> rfl)
  | _, _, .cons c rest rest' => by
    simp only [readEscape]
    cases e.next Text.nameEscape? c with
    | more e' =>
      refine ⟨.take true .skip (.escape quote use read e' :: below), ?_, rfl, rfl⟩
      cases use <;> exact .take (.stay _) rfl rfl
    | char d =>
      refine ⟨.take true .skip (.quoted quote use (d :: read) :: below), ?_, rfl, rfl⟩
      cases use <;> exact .take (.stay _) rfl rfl
    | unknown => exact oneMove_fail rfl
    | stray => exact oneMove_fail rfl
    | lone =>
      cases e with
      | unit _ _ => exact ⟨.refuse true .badCodePoint, .refuse rfl rfl, rfl, rfl⟩
      | _ => exact oneMove_fail rfl

theorem readElement_move (hm : m.modes = .element :: below) (hn : n.modes = .element :: below) :
    ∀ {text text'}, Heads text text' →
      OneMove m n text text' .element below none (m.readElement below text) (n.readElement below text')
  | _, _, .nil => oneMove_fail rfl
  | _, _, .cons c rest rest' => by
    rw [readElement, readElement]
    refine oneMove_ite (fun _ => oneMove_past hm hn) fun _ => ?_
    refine oneMove_ite (fun _ => ?_) fun _ => ?_
    · exact ⟨.take true (.selector .wildcard) (.path :: below), .take .wildcard rfl rfl, rfl, rfl⟩
    refine oneMove_ite (fun _ => ?_) fun _ => ?_
    · exact ⟨.take true .skip (.quoted c .member [] :: .path :: below), .take .elementName rfl rfl, rfl, rfl⟩
    refine oneMove_ite (fun _ => ?_) fun _ => ?_
    · exact ⟨.take false .skip (.integer .first :: below), .take .elementBound rfl rfl, rfl, rfl⟩
    refine oneMove_ite (fun _ => ?_) fun _ => ?_
    · exact ⟨.take false .skip (.boundEnd .first [] :: below), .take .elementBound rfl rfl, rfl, rfl⟩
    refine oneMove_ite (fun _ => ?_) fun _ => ?_
    · exact ⟨.take true .openFilter (.operand :: .operator :: .filterEnd :: below), .take .elementFilter rfl rfl, rfl,
        rfl⟩
    refine oneMove_ite (fun _ => ?_) fun _ => ?_
    · exact ⟨.take false .openComputed (.operand :: .operator :: .computedEnd :: below),
        .take .elementComputed rfl rfl, rfl, rfl⟩
    refine oneMove_ite (fun _ => ?_) fun _ => ?_
    · exact ⟨.take true .root (.path :: below), .take .elementRoot rfl rfl, rfl, rfl⟩
    refine oneMove_ite (fun _ => ?_) fun _ => ?_
    · exact ⟨.take true .current (.path :: below), .take .elementCurrent rfl rfl, rfl, rfl⟩
    refine oneMove_ite (fun _ => oneMove_fail rfl) fun _ => ?_
    exact ⟨.take false .skip (.bareName .member [] :: .path :: below), .take .elementName rfl rfl, rfl, rfl⟩

theorem readElementEnd_move (g : Bool) (hm : m.modes = .elementEnd :: below) (hn : n.modes = .elementEnd :: below) :
    ∀ {text text'}, Heads text text' →
      OneMove m n text text' .elementEnd below (text.head?.bind (Mode.closer? g · .elementEnd))
        (m.readElementEnd below text) (n.readElementEnd below text')
  | _, _, .nil => oneMove_fail rfl
  | _, _, .cons c rest rest' => by
    by_cases hc : c = ']'
    · subst hc
      have hread : ∀ (m : Machine) rest, m.readElementEnd below (']' :: rest) =
          ((m.skip (']' :: rest) true).attempt Assembly.closeUnion).map (·.goto below) := fun _ _ => rfl
      rw [hread, hread]
      exact attempt_move true .listEnd rfl (fun _ _ => rfl) rfl
    have hnone : (List.head? (c :: rest)).bind (Mode.closer? g · .elementEnd) = none := if_neg hc
    rw [hnone, readElementEnd, readElementEnd, if_neg hc, if_neg hc]
    refine oneMove_ite (fun _ => oneMove_past hm hn) fun _ => ?_
    refine oneMove_ite (fun _ => ?_) fun _ => oneMove_fail rfl
    exact ⟨.take true .separator (.element :: .elementEnd :: below), .take .nextElement rfl rfl, rfl, rfl⟩

theorem readInteger_move {bound : Bound} (hm : m.modes = .integer bound :: below)
    (hn : n.modes = .integer bound :: below) : ∀ {text text'}, Heads text text' →
      OneMove m n text text' .bound below none (m.readInteger below bound text) (n.readInteger below bound text')
  | _, _, .nil => ⟨.take false .skip (.digits bound [] :: below), .take (.stay _) rfl rfl, rfl, rfl⟩
  | _, _, .cons c rest rest' => by
    rw [readInteger, readInteger]
    refine oneMove_ite (fun _ => oneMove_past hm hn) fun _ => ?_
    refine oneMove_ite (fun _ => ?_) fun _ => ?_
    · exact ⟨.take true .skip (.digits bound [c] :: below), .take (.stay _) rfl rfl, rfl, rfl⟩
    · exact ⟨.take false .skip (.digits bound [] :: below), .take (.stay _) rfl rfl, rfl, rfl⟩

theorem readDigits_move (bound : Bound) (read : List Char) : ∀ {text text'}, Heads text text' →
    OneMove m n text text' .bound below none (m.readDigits below bound read text) (n.readDigits below bound read text')
  | _, _, .nil => ⟨.take false .skip (.boundEnd bound read :: below), .take (.stay _) rfl rfl, rfl, rfl⟩
  | _, _, .cons c rest rest' => by
    rw [readDigits, readDigits]
    refine oneMove_ite (fun _ => ?_) fun _ => ?_
    · exact ⟨.take true .skip (.digits bound (c :: read) :: below), .take (.stay _) rfl rfl, rfl, rfl⟩
    · exact ⟨.take false .skip (.boundEnd bound read :: below), .take (.stay _) rfl rfl, rfl, rfl⟩

/-- An integer is read, or is none, wherever it stands. -/
theorem readBound_cases (read : List Char) :
    (∃ i, ∀ m : Machine, m.readBound read = .ok i) ∨ ∀ m : Machine, m.readBound read = m.fail .badNumber := by
  simp only [readBound]
  split
  · exact .inl ⟨none, fun _ => rfl⟩
  · cases (readInt? read.reverse).bind int64? with
    | some i => exact .inl ⟨some i, fun _ => rfl⟩
    | none => exact .inr fun _ => rfl

theorem boundSelector_cases (i : Option Int) (bound : Bound) :
    (∃ s : Selector, s.Simple ∧ ∀ m : Machine, m.boundSelector i bound = .ok s) ∨
      ∃ fault : SyntaxFault, fault.inText = true ∧ ∀ m : Machine, m.boundSelector i bound = m.fail fault := by
  cases bound with
  | first =>
    cases i with
    | none => exact .inr ⟨.badNumber, rfl, fun _ => rfl⟩
    | some i => exact .inl ⟨.index i, .index i, fun _ => rfl⟩
  | stop start => exact .inl ⟨_, .slice _, fun _ => rfl⟩
  | step start stop =>
    by_cases hi : i = some 0
    · exact .inr ⟨.zeroStep, rfl, fun _ => if_pos hi⟩
    · exact .inl ⟨_, .slice _, fun _ => if_neg hi⟩

theorem readBoundEnd_move {bound : Bound} {read : List Char} (hm : m.modes = .boundEnd bound read :: below)
    (hn : n.modes = .boundEnd bound read :: below) : ∀ {text text'}, Heads text text' →
      OneMove m n text text' .bound below none (m.readBoundEnd below bound read text)
        (n.readBoundEnd below bound read text')
  | _, _, .nil => oneMove_fail rfl
  | _, _, .cons c rest rest' => by
    simp only [readBoundEnd]
    refine oneMove_ite (fun _ => oneMove_past hm hn) fun _ => ?_
    obtain ⟨i, hi⟩ | hi := readBound_cases read
    · simp only [hi, Except.bind, Except.map]
      refine oneMove_ite (fun _ => ?_) fun _ => oneMove_ite (fun _ => ?_) fun _ => oneMove_fail rfl
      · obtain ⟨s, hs, he⟩ | ⟨fault, hf, he⟩ := boundSelector_cases i bound
        · rw [he, he]
          exact ⟨.take false (.selector s) below, .take (.bound hs) rfl rfl, rfl, rfl⟩
        · rw [he, he]
          exact oneMove_fail hf
      · cases bound with
        | first => exact ⟨.take true .skip (.integer (.stop i) :: below), .take (.stay _) rfl rfl, rfl, rfl⟩
        | stop start =>
          exact ⟨.take true .skip (.integer (.step start i) :: below), .take (.stay _) rfl rfl, rfl, rfl⟩
        | step start stop => exact oneMove_fail rfl
    · simp only [hi]
      refine oneMove_ite (fun _ => oneMove_fail rfl) fun _ => oneMove_ite (fun _ => ?_) fun _ => oneMove_fail rfl
      cases bound <;> exact oneMove_fail rfl

/-- At the end of an index or of a slice a selector is added, the same one in any machine, and the end is left to the
list. -/
theorem readBoundEnd_of_end {bound : Bound} {read : List Char} {c : Char} {rest : List Char} (hc : c = ']' ∨ c = ',')
    (h : m.readBoundEnd below bound read (c :: rest) = .ok n) : ∃ s, n = (m.emitSelector s).goto below ∧
      ∀ (k : Machine) (d : Char) (later : List Char), d = ']' ∨ d = ',' →
        k.readBoundEnd below bound read (d :: later) = .ok ((k.emitSelector s).goto below) := by
  have hread : ∀ (k : Machine) (d : Char) (later : List Char), d = ']' ∨ d = ',' →
      k.readBoundEnd below bound read (d :: later) =
        (k.readBound read).bind fun i => (k.boundSelector i bound).map fun s => (k.emitSelector s).goto below := by
    rintro k d later (rfl | rfl) <;> rfl
  rw [hread _ _ _ hc] at h
  obtain ⟨i, hi⟩ | hi := readBound_cases read
  · rw [hi, Except.bind] at h
    obtain ⟨s, -, hs⟩ | ⟨fault, -, hs⟩ := boundSelector_cases i bound <;> rw [hs] at h
    · cases h
      refine ⟨s, rfl, fun k d later hd => ?_⟩
      rw [hread _ _ _ hd, hi, Except.bind, hs]
      rfl
    · cases h
  · rw [hi] at h
    cases h

theorem readExpressionEnd_move {mode : Mode} {close : Assembly → Except SyntaxFault Assembly}
    (hm : m.modes = mode :: below) (hn : n.modes = mode :: below) (ht : Turn mode.role act [])
    (hp : ∀ k a, act.perform k a = close a) (hr : act.roots = 0) : ∀ {text text'}, Heads text text' →
      OneMove m n text text' mode.role below
        (text.head?.bind fun c => if c = ']' ∨ c = ',' then act.closing? else none)
        (m.readExpressionEnd below close text) (n.readExpressionEnd below close text')
  | _, _, .nil => oneMove_fail rfl
  | _, _, .cons c rest rest' => by
    simp only [readExpressionEnd, Bool.or_eq_true, decide_eq_true_eq, List.head?_cons, Option.bind_some]
    by_cases hc : c = ']' ∨ c = ','
    · have hs : ¬Text.isSpace c = true := by
        rcases hc with rfl | rfl <;> decide
      simp only [if_pos hc, if_neg hs]
      exact attempt_move false ht rfl hp hr
    · simp only [if_neg hc]
      exact oneMove_ite (fun _ => oneMove_past hm hn) fun _ => oneMove_fail rfl

theorem readOperand_move (hm : m.modes = .operand :: below) (hn : n.modes = .operand :: below) :
    ∀ {text text'}, Heads text text' →
      OneMove m n text text' .operand below none (m.readOperand below text) (n.readOperand below text')
  | _, _, .nil => oneMove_fail rfl
  | _, _, .cons c rest rest' => by
    rw [readOperand, readOperand]
    refine oneMove_ite (fun _ => oneMove_past hm hn) fun _ => ?_
    refine oneMove_ite (fun _ => ?_) fun _ => ?_
    · exact ⟨.take true .root below, .take .operandRoot rfl rfl, rfl, rfl⟩
    refine oneMove_ite (fun _ => ?_) fun _ => ?_
    · exact ⟨.take true .current below, .take .operandCurrent rfl rfl, rfl, rfl⟩
    refine oneMove_ite (fun _ => ?_) fun _ => ?_
    · exact ⟨.take true .openGroup (.operand :: below), .take .group rfl rfl,
        makes_past hm rfl rfl, makes_past hn rfl rfl⟩
    refine oneMove_ite (fun _ => ?_) fun _ => ?_
    · exact ⟨.take true .skip (.quoted c .literal [] :: below), .take (.stay _) rfl rfl, rfl, rfl⟩
    refine oneMove_ite (fun _ => ?_) fun _ => ?_
    · exact ⟨.take true (.operator (.unary .not)) (.operand :: below), .take (.unary .not rfl) rfl rfl,
        makes_past hm rfl rfl, makes_past hn rfl rfl⟩
    refine oneMove_ite (fun _ => ?_) fun _ => ?_
    · exact ⟨.take true (.operator (.unary .negate)) (.operand :: below), .take (.unary .negate rfl) rfl rfl,
        makes_past hm rfl rfl, makes_past hn rfl rfl⟩
    refine oneMove_ite (fun _ => ?_) fun _ => ?_
    · exact ⟨.take false .skip (.number [] :: below), .take (.stay _) rfl rfl, rfl, rfl⟩
    refine oneMove_ite (fun _ => ?_) fun _ => ?_
    · exact ⟨.take false .skip (.json 0 [] :: below), .take (.stay _) rfl rfl, rfl, rfl⟩
    refine oneMove_ite (fun _ => ?_) fun _ => oneMove_fail rfl
    exact ⟨.take false .skip (.bareName .operand [] :: below), .take (.stay _) rfl rfl, rfl, rfl⟩

theorem operatorStart?_half {c : Char} {modes : List Mode} (h : operatorStart? c = some (.half modes)) :
    Mode.roles modes = [.comparator] ∨ Mode.roles modes = [.half, .operand] := by
  unfold operatorStart? at h
  split at h <;> simp at h <;> subst h <;> simp [Mode.roles, Mode.role]

/-- Behind an operand it depends on what has been assembled only whether a parenthesis is closed. -/
theorem readOperator_move (hm : m.modes = .operator :: below) (hn : n.modes = .operator :: below) :
    ∀ {text text'}, Heads text text' →
      (text.head? = some ')' → n.assembly.hasOpenGroup = m.assembly.hasOpenGroup) →
        OneMove m n text text' .operator below
          (text.head?.bind (Mode.closer? m.assembly.hasOpenGroup · .operator)) (m.readOperator below text)
          (n.readOperator below text')
  | _, _, .nil => fun _ => oneMove_fail rfl
  | _, _, .cons c rest rest' => fun hg => by
    by_cases hc : c = ')'
    · subst hc
      have hread : ∀ (k : Machine) rest, k.assembly.hasOpenGroup = m.assembly.hasOpenGroup →
          k.readOperator below (')' :: rest) =
            if m.assembly.hasOpenGroup then (k.past ')' rest).attempt Assembly.closeGroup
            else if below.head? = some .arguments then .ok (k.goto below)
            else k.fail .unbalancedParenthesis := by
        intro k rest hk
        rw [readOperator, hk]
        rfl
      rw [hread m rest rfl, hread n rest' (hg rfl)]
      cases m.assembly.hasOpenGroup with
      | true =>
        refine ⟨.take true .closeGroup (.operator :: below), .take .groupEnd rfl rfl, ?_, ?_⟩
        · exact makes_attempt_past hm (fun _ _ => rfl) rfl
        · exact makes_attempt_past hn (fun _ _ => rfl) rfl
      | false =>
        rw [if_neg Bool.false_ne_true, if_neg Bool.false_ne_true]
        show OneMove m n _ _ .operator below none _ _
        refine oneMove_ite (fun _ => ?_) fun _ => oneMove_fail rfl
        exact ⟨.take false .skip below, .take .operatorEnd rfl rfl, rfl, rfl⟩
    simp only [readOperator, List.head?_cons, Option.bind_some, Mode.closer?]
    have hnone : ¬(c = ')' ∧ m.assembly.hasOpenGroup = true) := fun h => hc h.1
    simp only [if_neg hnone, if_neg hc]
    refine oneMove_ite (fun _ => oneMove_past hm hn) fun _ => ?_
    refine oneMove_ite (fun _ => ?_) fun _ => ?_
    · exact ⟨.take true .skip (.dot :: .operator :: below), .take .operatorStep rfl rfl, rfl, rfl⟩
    refine oneMove_ite (fun _ => ?_) fun _ => ?_
    · exact ⟨.take true .openUnion (.element :: .elementEnd :: .operator :: below), .take .operatorList rfl rfl, rfl,
        rfl⟩
    refine oneMove_ite (fun _ => ?_) fun _ => ?_
    · exact ⟨.take false .skip below, .take .operatorEnd rfl rfl, rfl, rfl⟩
    split
    · next op _ =>
      exact ⟨.take true (.operator (.binary op)) (.operand :: .operator :: below), .take (.binary op) rfl rfl, rfl, rfl⟩
    · next modes ho =>
      refine ⟨.take true .skip (modes ++ .operator :: below), ?_, rfl, rfl⟩
      obtain h | h := operatorStart?_half ho
      · refine .take .comparator ?_ rfl
        rw [Mode.roles, List.map_append, ← Mode.roles, h]
        rfl
      · refine .take .half ?_ rfl
        rw [Mode.roles, List.map_append, ← Mode.roles, h]
        rfl
    · exact oneMove_fail rfl

/-- A literal is complete before a text, or behind its first character. -/
theorem literal_move {text text' : List Char} (past : Bool) (v : Value) :
    OneMove m n text text' .operand below none (.ok (((m.skip text past).emitLiteral v).goto below))
      (.ok (((n.skip text' past).emitLiteral v).goto below)) := by
  refine ⟨.take past (.literal v) below, .take (.literal v) rfl rfl, ?_, ?_⟩
  · cases past <;> cases text <;> rfl
  · cases past <;> cases text' <;> rfl

theorem endNumber_move {text text' : List Char} (read : List Char) :
    OneMove m n text text' .operand below none (m.endNumber env below read) (n.endNumber env below read) := by
  unfold endNumber
  cases env.number? (String.ofList read.reverse) with
  | some k => exact literal_move false _
  | none => exact oneMove_fail rfl

theorem readNumber_move (read : List Char) : ∀ {text text'}, Heads text text' →
    OneMove m n text text' .operand below none (m.readNumber env below read text) (n.readNumber env below read text')
  | _, _, .nil => endNumber_move read
  | _, _, .cons c rest rest' => by
    rw [readNumber, readNumber]
    refine oneMove_ite (fun _ => ?_) fun _ => endNumber_move read
    exact ⟨.take true .skip (.number (c :: read) :: below), .take (.stay _) rfl rfl, rfl, rfl⟩

theorem endJson_move {c : Char} {rest rest' : List Char} (read : List Char) :
    OneMove m n (c :: rest) (c :: rest') .operand below none ((m.past c rest).endJson env below read)
      ((n.past c rest').endJson env below read) := by
  unfold endJson
  cases env.json? (String.ofList read.reverse) with
  | some v => exact literal_move true v
  | none => exact ⟨.refuse true .badLiteral, .refuse rfl rfl, rfl, rfl⟩

theorem readJson_move (depth : Nat) (read : List Char) : ∀ {text text'}, Heads text text' →
    OneMove m n text text' .operand below none (m.readJson env below depth read text)
      (n.readJson env below depth read text')
  | _, _, .nil => oneMove_fail rfl
  | _, _, .cons c rest rest' => by
    rw [readJson, readJson]
    refine oneMove_ite (fun _ => ?_) fun _ => ?_
    · exact ⟨.take true .skip (.json (depth + 1) (c :: read) :: below), .take (.stay _) rfl rfl, rfl, rfl⟩
    refine oneMove_ite (fun _ => oneMove_ite (fun _ => endJson_move _) fun _ => ?_) fun _ => ?_
    · exact ⟨.take true .skip (.json (depth - 1) (c :: read) :: below), .take (.stay _) rfl rfl, rfl, rfl⟩
    refine oneMove_ite (fun _ => ?_) fun _ => ?_
    · exact ⟨.take true .skip (.jsonString depth (c :: read) :: below), .take (.stay _) rfl rfl, rfl, rfl⟩
    · exact ⟨.take true .skip (.json depth (c :: read) :: below), .take (.stay _) rfl rfl, rfl, rfl⟩

theorem readJsonString_move (depth : Nat) (read : List Char) : ∀ {text text'}, Heads text text' →
    OneMove m n text text' .operand below none (m.readJsonString below depth read text)
      (n.readJsonString below depth read text')
  | _, _, .nil => oneMove_fail rfl
  | _, _, .cons c rest rest' => by
    rw [readJsonString, readJsonString]
    refine oneMove_ite (fun _ => ?_) fun _ => ?_
    · exact ⟨.take true .skip (.jsonEscape depth (c :: read) :: below), .take (.stay _) rfl rfl, rfl, rfl⟩
    refine oneMove_ite (fun _ => ?_) fun _ => ?_
    · exact ⟨.take true .skip (.json depth (c :: read) :: below), .take (.stay _) rfl rfl, rfl, rfl⟩
    · exact ⟨.take true .skip (.jsonString depth (c :: read) :: below), .take (.stay _) rfl rfl, rfl, rfl⟩

theorem readJsonEscape_move (depth : Nat) (read : List Char) : ∀ {text text'}, Heads text text' →
    OneMove m n text text' .operand below none (m.readJsonEscape below depth read text)
      (n.readJsonEscape below depth read text')
  | _, _, .nil => oneMove_fail rfl
  | _, _, .cons c rest rest' =>
    ⟨.take true .skip (.jsonString depth (c :: read) :: below), .take (.stay _) rfl rfl, rfl, rfl⟩

theorem endOperandName_move {text text' : List Char} (name : String) :
    OneMove m n text text' .operand below none (m.endOperandName below name) (n.endOperandName below name) := by
  unfold endOperandName
  cases keyword? name with
  | some v => exact literal_move false v
  | none => exact oneMove_fail rfl

theorem readOperandName_move {name : String} (hm : m.modes = .operandName name :: below)
    (hn : n.modes = .operandName name :: below) : ∀ {text text'}, Heads text text' →
      OneMove m n text text' .operand below none (m.readOperandName env below name text)
        (n.readOperandName env below name text')
  | _, _, .nil => endOperandName_move name
  | _, _, .cons c rest rest' => by
    rw [readOperandName, readOperandName]
    refine oneMove_ite (fun _ => oneMove_past hm hn) fun _ => ?_
    exact oneMove_ite (fun _ => openCall_move .operandCall rfl) fun _ => endOperandName_move name

theorem readArguments_move (g : Bool) (hm : m.modes = .arguments :: below) (hn : n.modes = .arguments :: below) :
    ∀ {text text'}, Heads text text' →
      OneMove m n text text' .arguments below (text.head?.bind (Mode.closer? g · .arguments))
        (m.readArguments below text) (n.readArguments below text')
  | _, _, .nil => oneMove_fail rfl
  | _, _, .cons c rest rest' => by
    by_cases hc : c = ','
    · subst hc
      have hread : ∀ (m : Machine) rest, m.readArguments below (',' :: rest) =
          ((m.skip (',' :: rest) true).attempt Assembly.closeArgument).map
            (·.goto (.operand :: .operator :: .arguments :: below)) := fun _ _ => rfl
      rw [hread, hread]
      exact attempt_move true .nextArgument rfl (fun _ _ => rfl) rfl
    by_cases hp : c = ')'
    · subst hp
      have hread : ∀ (m : Machine) rest, m.readArguments below (')' :: rest) =
          ((m.skip (')' :: rest) true).attempt Assembly.closeCall).map (·.goto below) := fun _ _ => rfl
      rw [hread, hread]
      exact attempt_move true .callEnd rfl (fun _ _ => rfl) rfl
    have hnone : (List.head? (c :: rest)).bind (Mode.closer? g · .arguments) = none := by
      simp [Mode.closer?, hc, hp]
    rw [hnone, readArguments, readArguments, if_neg hc, if_neg hc, if_neg hp, if_neg hp]
    exact oneMove_ite (fun _ => oneMove_past hm hn) fun _ => oneMove_fail rfl

theorem readFirstArgument_move (hm : m.modes = .firstArgument :: below) (hn : n.modes = .firstArgument :: below) :
    ∀ {text text'}, Heads text text' →
      OneMove m n text text' .firstArgument below none (m.readFirstArgument below text)
        (n.readFirstArgument below text')
  | _, _, .nil => oneMove_fail rfl
  | _, _, .cons c rest rest' => by
    rw [readFirstArgument, readFirstArgument]
    refine oneMove_ite (fun _ => oneMove_past hm hn) fun _ => ?_
    refine oneMove_ite (fun _ => ?_) fun _ => ?_
    · exact ⟨.take false .skip below, .take .noArgument rfl rfl, rfl, rfl⟩
    · exact ⟨.take false .skip (.operand :: .operator :: below), .take .argument rfl rfl, rfl, rfl⟩

/-- A comparison is complete before a text, or behind its first character. -/
theorem comparison_move {text text' : List Char} (past : Bool) (op : BinaryOp) :
    OneMove m n text text' .comparator below none (.ok (((m.skip text past).emitBinary op).goto (.operand :: below)))
      (.ok (((n.skip text' past).emitBinary op).goto (.operand :: below))) := by
  refine ⟨.take past (.operator (.binary op)) (.operand :: below), .take (.comparison op) rfl rfl, ?_, ?_⟩
  · cases past <;> cases text <;> rfl
  · cases past <;> cases text' <;> rfl

theorem readInequality_move (strict inclusive : BinaryOp) : ∀ {text text'}, Heads text text' →
    OneMove m n text text' .comparator below none (m.readInequality below strict inclusive text)
      (n.readInequality below strict inclusive text')
  | _, _, .nil => comparison_move false strict
  | _, _, .cons c rest rest' => by
    rw [readInequality, readInequality]
    exact oneMove_ite (fun _ => comparison_move true inclusive) fun _ => comparison_move false strict

theorem readEqual_move : ∀ {text text'}, Heads text text' →
    OneMove m n text text' .comparator below none (m.readEqual below text) (n.readEqual below text')
  | _, _, .nil => oneMove_fail rfl
  | _, _, .cons c rest rest' => by
    rw [readEqual, readEqual]
    refine oneMove_ite (fun _ => comparison_move true .eq) fun _ => ?_
    refine oneMove_ite (fun _ => ?_) fun _ => oneMove_fail rfl
    exact ⟨.take true .skip (.patternStart :: below), .take (.stay _) rfl rfl, rfl, rfl⟩

theorem readNotEqual_move : ∀ {text text'}, Heads text text' →
    OneMove m n text text' .comparator below none (m.readNotEqual below text) (n.readNotEqual below text')
  | _, _, .nil => oneMove_fail rfl
  | _, _, .cons c rest rest' => by
    rw [readNotEqual, readNotEqual]
    exact oneMove_ite (fun _ => comparison_move true .ne) fun _ => oneMove_fail rfl

theorem readHalf_move {fault : SyntaxFault} (hf : fault.inText = true) (half : Char) (op : BinaryOp) :
    ∀ {text text'}, Heads text text' →
      OneMove m n text text' .half below none (m.readHalf below half op fault text)
        (n.readHalf below half op fault text')
  | _, _, .nil => oneMove_fail rfl
  | _, _, .cons c rest rest' => by
    rw [readHalf, readHalf]
    refine oneMove_ite (fun _ => ?_) fun _ => oneMove_fail hf
    exact ⟨.take true (.operator (.binary op)) below, .take (.halfEnd op) rfl rfl, rfl, rfl⟩

theorem readPatternStart_move (hm : m.modes = .patternStart :: below) (hn : n.modes = .patternStart :: below) :
    ∀ {text text'}, Heads text text' →
      OneMove m n text text' .comparator below none (m.readPatternStart below text) (n.readPatternStart below text')
  | _, _, .nil => oneMove_fail rfl
  | _, _, .cons c rest rest' => by
    rw [readPatternStart, readPatternStart]
    refine oneMove_ite (fun _ => oneMove_past hm hn) fun _ => ?_
    refine oneMove_ite (fun _ => ?_) fun _ => oneMove_fail rfl
    exact ⟨.take true .skip (.pattern [] :: below), .take (.stay _) rfl rfl, rfl, rfl⟩

theorem readPattern_move (read : List Char) : ∀ {text text'}, Heads text text' →
    OneMove m n text text' .comparator below none (m.readPattern below read text) (n.readPattern below read text')
  | _, _, .nil => oneMove_fail rfl
  | _, _, .cons c rest rest' => by
    rw [readPattern, readPattern]
    refine oneMove_ite (fun _ => ?_) fun _ => ?_
    · exact ⟨.take true .skip (.patternEscape read :: below), .take (.stay _) rfl rfl, rfl, rfl⟩
    refine oneMove_ite (fun _ => ?_) fun _ => ?_
    · exact ⟨.take true .skip (.patternEnd read :: below), .take (.stay _) rfl rfl, rfl, rfl⟩
    · exact ⟨.take true .skip (.pattern (c :: read) :: below), .take (.stay _) rfl rfl, rfl, rfl⟩

theorem readPatternEscape_move (read : List Char) : ∀ {text text'}, Heads text text' →
    OneMove m n text text' .comparator below none (m.readPatternEscape below read text)
      (n.readPatternEscape below read text')
  | _, _, .nil => oneMove_fail rfl
  | _, _, .cons c rest rest' =>
    ⟨.take true .skip (.pattern (if c = '/' then c :: read else c :: '\\' :: read) :: below),
      .take (.stay _) rfl rfl, rfl, rfl⟩

/-- A regular expression is complete before a text, or behind its first character. -/
theorem endPattern_move {text text' : List Char} (past : Bool) (read : List Char) (fold : Bool) :
    OneMove m n text text' .comparator below none ((m.skip text past).endPattern env below read fold)
      ((n.skip text' past).endPattern env below read fold) := by
  unfold endPattern
  cases env.pattern (String.ofList read.reverse) fold with
  | error _ => exact ⟨.refuse past .badPattern, .refuse rfl rfl, rfl, rfl⟩
  | ok p =>
    refine ⟨.take past (.operator (.unary (.likes p))) below, .take (.likes p) rfl rfl, ?_, ?_⟩
    · cases past <;> cases text <;> rfl
    · cases past <;> cases text' <;> rfl

theorem readPatternEnd_move (read : List Char) : ∀ {text text'}, Heads text text' →
    OneMove m n text text' .comparator below none (m.readPatternEnd env below read text)
      (n.readPatternEnd env below read text')
  | _, _, .nil => endPattern_move false read false
  | _, _, .cons c rest rest' => by
    rw [readPatternEnd, readPatternEnd]
    exact oneMove_ite (fun _ => endPattern_move true read true) fun _ => endPattern_move false read false

theorem heads_of_head? : ∀ {text text' : List Char}, text'.head? = text.head? → Heads text text'
  | [], [], _ => .nil
  | c :: rest, c' :: rest', h => by
    cases h
    exact .cons c rest rest'

/-- The innermost mode, the next character and, if this closes a parenthesis, whether one is open decide the move. -/
theorem stepIn_move {mode : Mode} (hm : m.modes = mode :: below) (hn : n.modes = m.modes)
    (hr : n.rest.head? = m.rest.head?) (hg : mode = .operator → m.rest.head? = some ')' →
      n.assembly.hasOpenGroup = m.assembly.hasOpenGroup) :
    OneMove m n m.rest n.rest mode.role below (m.rest.head?.bind (Mode.closer? m.assembly.hasOpenGroup · mode))
      (m.stepIn env below mode) (n.stepIn env below mode) := by
  have hn' : n.modes = mode :: below := hn.trans hm
  have h := heads_of_head? hr
  have plain : ∀ {x y}, (∀ c, mode.closer? m.assembly.hasOpenGroup c = none) →
      OneMove m n m.rest n.rest mode.role below none x y →
      OneMove m n m.rest n.rest mode.role below (m.rest.head?.bind (Mode.closer? m.assembly.hasOpenGroup · mode))
        x y := by
    intro x y hc hxy
    have hnone : (m.rest.head?.bind (Mode.closer? m.assembly.hasOpenGroup · mode)) = none := by simp [hc]
    rwa [hnone]
  cases mode with
  | start => exact plain (fun _ => rfl) (readStart_move hm hn' h)
  | bareName use read => exact plain (fun _ => rfl) (readBareName_move use read h)
  | queryCall name => exact plain (fun _ => rfl) (readQueryCall_move hm hn' h)
  | path => exact plain (fun _ => rfl) (readPath_move hm hn' h)
  | dot => exact plain (fun _ => rfl) (readDot_move h)
  | descent => exact plain (fun _ => rfl) (readDescent_move h)
  | dotName => exact plain (fun _ => rfl) (readDotName_move hm hn' h)
  | quoted quote use read => exact plain (fun _ => rfl) (readQuoted_move quote use read h)
  | escape quote use read e => exact plain (fun _ => rfl) (readEscape_move quote use read e h)
  | element => exact plain (fun _ => rfl) (readElement_move hm hn' h)
  | elementEnd => exact readElementEnd_move _ hm hn' h
  | integer bound => exact plain (fun _ => rfl) (readInteger_move hm hn' h)
  | digits bound read => exact plain (fun _ => rfl) (readDigits_move bound read h)
  | boundEnd bound read => exact plain (fun _ => rfl) (readBoundEnd_move hm hn' h)
  | filterEnd => exact readExpressionEnd_move hm hn' .filterEnd (fun _ _ => rfl) rfl h
  | computedEnd => exact readExpressionEnd_move hm hn' .computedEnd (fun _ _ => rfl) rfl h
  | operand => exact plain (fun _ => rfl) (readOperand_move hm hn' h)
  | operator => exact readOperator_move hm hn' h (hg rfl)
  | number read => exact plain (fun _ => rfl) (readNumber_move read h)
  | json depth read => exact plain (fun _ => rfl) (readJson_move depth read h)
  | jsonString depth read => exact plain (fun _ => rfl) (readJsonString_move depth read h)
  | jsonEscape depth read => exact plain (fun _ => rfl) (readJsonEscape_move depth read h)
  | operandName name => exact plain (fun _ => rfl) (readOperandName_move hm hn' h)
  | arguments => exact readArguments_move _ hm hn' h
  | firstArgument => exact plain (fun _ => rfl) (readFirstArgument_move hm hn' h)
  | less => exact plain (fun _ => rfl) (readInequality_move .lt .le h)
  | greater => exact plain (fun _ => rfl) (readInequality_move .gt .ge h)
  | equal => exact plain (fun _ => rfl) (readEqual_move h)
  | notEqual => exact plain (fun _ => rfl) (readNotEqual_move h)
  | or => exact plain (fun _ => rfl) (readHalf_move rfl '|' .or h)
  | and => exact plain (fun _ => rfl) (readHalf_move rfl '&' .and h)
  | patternStart => exact plain (fun _ => rfl) (readPatternStart_move hm hn' h)
  | pattern read => exact plain (fun _ => rfl) (readPattern_move read h)
  | patternEscape read => exact plain (fun _ => rfl) (readPatternEscape_move read h)
  | patternEnd read => exact plain (fun _ => rfl) (readPatternEnd_move read h)

/-- What is seen by a machine: its modes, the next character and whether a parenthesis is open. -/
structure SeesAs (n m : Machine) : Prop where
  modes : n.modes = m.modes
  next : n.rest.head? = m.rest.head?
  grouped : n.assembly.hasOpenGroup = m.assembly.hasOpenGroup

/-- Whether a parenthesis is open has to be the same only where one may be closed. -/
theorem step_move_of (hn : n.modes = m.modes) (hr : n.rest.head? = m.rest.head?)
    (hg : m.modes.head? = some .operator → m.rest.head? = some ')' →
      n.assembly.hasOpenGroup = m.assembly.hasOpenGroup) (hm : m.modes ≠ []) :
    ∃ r below, m.roles = r :: Mode.roles below ∧
      OneMove m n m.rest n.rest r below m.closer? (m.step env) (n.step env) := by
  cases hmode : m.modes with
  | nil => exact absurd hmode hm
  | cons mode below =>
    refine ⟨mode.role, below, by rw [roles, hmode]; rfl, ?_⟩
    have hc : m.closer? = m.rest.head?.bind (Mode.closer? m.assembly.hasOpenGroup · mode) := by
      rw [closer?, hmode]
      cases m.rest <;> rfl
    rw [hc, step, step, hn, hmode]
    refine stepIn_move hmode hn hr ?_
    rintro rfl
    exact hg (by rw [hmode]; rfl)

/-- Two machines that see the same make the same move, which is in the table of turns. -/
theorem step_move (h : n.SeesAs m) (hm : m.modes ≠ []) : ∃ r below, m.roles = r :: Mode.roles below ∧
    OneMove m n m.rest n.rest r below m.closer? (m.step env) (n.step env) :=
  step_move_of h.modes h.next (fun _ _ => h.grouped) hm

theorem SeesAs.refl (m : Machine) : m.SeesAs m := ⟨rfl, rfl, rfl⟩

theorem step_nil (hm : m.modes = []) : m.step env = m.fail .malformed := by
  rw [step, hm]

theorem step_cons {mode : Mode} (hm : m.modes = mode :: below) : m.step env = m.stepIn env below mode := by
  rw [step, hm]

theorem modes_ne_nil_of_step (h : m.step env = .ok n) : m.modes ≠ [] := by
  intro hm
  rw [step_nil hm] at h
  cases h

theorem attempt_goto_ok {f : Assembly → Except SyntaxFault Assembly} {modes : List Mode}
    (h : (m.attempt f).map (·.goto modes) = .ok n) :
    ∃ a, f m.assembly = .ok a ∧ n = { m with assembly := a, modes } := by
  obtain ⟨k, hk, rfl⟩ := map_eq_ok h
  obtain ⟨a, ha, rfl⟩ := attempt_eq_ok hk
  exact ⟨a, ha, rfl⟩

/-- `n` is what an act makes of `m`, with some roles on top. -/
structure Took (m : Machine) (act : Act) (roles : List Role) (n : Machine) : Prop where
  roles_eq : n.roles = roles
  performed : act.perform m.roots m.assembly = .ok n.assembly
  roots_eq : n.roots = m.roots + act.roots

/-- Whatever a step does is in the table of turns. -/
theorem step_turns (h : m.step env = .ok n) :
    ∃ r below act next, m.roles = r :: below ∧ Turn r act next ∧ m.Took act (next ++ below) n := by
  have hm : m.modes ≠ [] := modes_ne_nil_of_step h
  obtain ⟨r, below, hr, v, hv, hx, -⟩ := @step_move m m env (.refl m) hm
  rw [hx] at h
  cases hv with
  | refuse => cases h
  | @take past act modes next ht hmodes hc =>
    refine ⟨r, Mode.roles below, act, next, hr, ht, ?_⟩
    rw [makes] at h
    split at h
    · next a ha =>
      cases h
      exact ⟨hmodes, ha, rfl⟩
    · cases h

/-- One machine leads to another in some steps. -/
inductive Reaches (env : Env) : Machine → Machine → Prop
  | refl (m : Machine) : Reaches env m m
  | step {m n k : Machine} (h : m.step env = .ok n) (hk : Reaches env n k) : Reaches env m k

theorem Reaches.trans {k : Machine} (h : Reaches env m n) (hk : Reaches env n k) : Reaches env m k := by
  induction h with
  | refl m => exact hk
  | step hs _ ih => exact .step hs (ih hk)

/-- A step reads at most one character. -/
theorem rest_of_step (h : m.step env = .ok n) : n.rest = m.rest ∨ ∃ c, m.rest = c :: n.rest := by
  have hm : m.modes ≠ [] := modes_ne_nil_of_step h
  obtain ⟨r, below, -, v, -, hx, -⟩ := @step_move m m env (.refl m) hm
  rw [hx] at h
  cases v with
  | refuse => cases h
  | take past act modes =>
    rw [makes] at h
    split at h
    · cases h
      cases past with
      | false => exact .inl rfl
      | true =>
        cases hr : m.rest with
        | nil => exact .inl hr
        | cons c rest => exact .inr ⟨c, rfl⟩
    · cases h

theorem Reaches.rest_suffix (h : Reaches env m n) : n.rest <:+ m.rest := by
  induction h with
  | refl m => exact List.suffix_refl _
  | step hs _ ih =>
    obtain hr | ⟨c, hr⟩ := rest_of_step hs
    · exact hr ▸ ih
    · rw [hr]
      exact ih.trans (List.suffix_cons c _)

/-- What every step keeps holds wherever the steps lead. -/
theorem Reaches.keeps {Holds : Machine → Prop} (h : Reaches env m n)
    (hs : ∀ {m n : Machine}, Holds m → m.step env = .ok n → Holds n) (hm : Holds m) : Holds n := by
  induction h with
  | refl m => exact hm
  | step h _ ih => exact ih (hs hm h)

theorem isFinished_iff : m.isFinished = true ↔ m.rest = [] ∧ m.modes = [.path] := by
  simp [isFinished]

theorem roles_of_isFinished (h : m.isFinished = true) : m.roles = [.path] := by
  rw [roles, (isFinished_iff.1 h).2]
  rfl

theorem not_isFinished_of_step (h : m.step env = .ok n) : m.isFinished ≠ true := by
  intro hf
  obtain ⟨hr, hm⟩ := isFinished_iff.1 hf
  rw [step_cons hm, stepIn, hr] at h
  cases h

/-- A run goes on with what a step leads to. -/
theorem run_of_step (h : m.step env = .ok n) : m.run env = n.run env := by
  rw [run, if_neg (not_isFinished_of_step h)]
  split
  · next e he =>
    rw [h] at he
    cases he
  · next k hk =>
    rw [h] at hk
    cases hk
    rfl

theorem Reaches.run (h : Reaches env m n) : m.run env = n.run env := by
  induction h with
  | refl m => rfl
  | step h _ ih => rw [run_of_step h, ih]

/-- A run that succeeds comes to the end of the query. -/
theorem exists_reaches {p : Program} (h : m.run env = .ok p) :
    ∃ n, Reaches env m n ∧ n.isFinished = true ∧ n.assembly.finish = .ok p := by
  induction m using Machine.run.induct env with
  | case1 m hf =>
    rw [Machine.run, if_pos hf] at h
    exact ⟨m, .refl m, hf, mapError_eq_ok h⟩
  | case2 m hf e he =>
    rw [Machine.run, if_neg hf] at h
    split at h
    · cases h
    · next k hk => simp [he] at hk
  | case3 m hf k hk ih =>
    rw [run_of_step hk] at h
    obtain ⟨n, hn, hfin, hp⟩ := ih h
    exact ⟨n, .step hk hn, hfin, hp⟩

/-- What every step keeps holds at the end of a run, where the program is finished. -/
theorem run_ok {Holds : Machine → Prop} (hs : ∀ {m n : Machine}, Holds m → m.step env = .ok n → Holds n)
    {p : Program} (hm : Holds m) (h : m.run env = .ok p) :
    ∃ n : Machine, Holds n ∧ n.isFinished = true ∧ n.assembly.finish = .ok p := by
  obtain ⟨n, hn, hfin, hp⟩ := exists_reaches h
  exact ⟨n, hn.keeps hs hm, hfin, hp⟩

/-- Reads what is left of a query in at most so many steps. -/
def runFor (env : Env) : Nat → Machine → Except SyntaxError Program
  | 0, m => m.fail .malformed
  | k + 1, m =>
    if m.isFinished then m.assembly.finish.mapError (⟨·, m.position⟩)
    else match m.step env with
      | .error e => .error e
      | .ok next => runFor env k next

theorem run_of_runFor {k : Nat} {p : Program} (h : m.runFor env k = .ok p) : m.run env = .ok p := by
  induction k generalizing m with
  | zero => simp [runFor, fail] at h
  | succ k ih =>
    rw [runFor] at h
    split_ifs at h with hf
    · rw [run, if_pos hf, h]
    · split at h
      · cases h
      · next next hn => rw [run_of_step hn, ih h]

end Machine

theorem Query.compileWith_of_runFor {env : Env} {s : String} {k : Nat} {p : Program}
    (h : (Machine.start s.toList).runFor env.withLibrary k = .ok p) :
    Query.compileWith env s = .ok ⟨p⟩ := by
  rw [Query.compileWith, Program.ofText, Machine.run_of_runFor h]
  rfl

end PathQuery
