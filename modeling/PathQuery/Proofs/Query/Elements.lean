import PathQuery.Proofs.Query.Embedded

namespace PathQuery

open Syntax (Branch bracketSelectors listItems firm_nil)

variable {env : Env}

namespace Machine

variable {m k : Machine}

/-- The machine before another text. -/
def before (m : Machine) (text : List Char) : Machine := { m with rest := text }

/-- The end of a test or of a computed key, which the reader leaves for the list. -/
theorem readExpressionEnd_before_comma {below : List Mode} {close : Assembly → Except SyntaxFault Assembly}
    (h : m.readExpressionEnd below close [']'] = .ok k) :
    (m.before [',']).readExpressionEnd below close [','] = .ok (k.before [',']) := by
  obtain ⟨a, ha, rfl⟩ := attempt_goto_ok h
  exact congrArg (Except.map (·.goto below)) (attempt_of_ok (m := m.before [',']) ha)

/-- A step before a bracket that does not read it is the same before a comma. -/
theorem step_before_comma (hr : m.rest = [']']) (hs : m.step env = .ok k) (hk : k.rest = [']']) :
    (m.before [',']).step env = .ok (k.before [',']) := by
  obtain ⟨text, position, modes, assembly, roots⟩ := m
  dsimp only at hr
  subst hr
  cases modes with
  | nil => cases hs
  | cons mode below =>
    rw [step_cons rfl] at hs ⊢
    cases mode <;> rw [stepIn] at hs ⊢
    -- behind the end of what stands before the bracket
    case path | dot | descent | integer | digits | operator | firstArgument | less | greater =>
      cases hs
      rfl
    case bareName use read =>
      cases hs
      cases use <;> rfl
    case boundEnd bound read =>
      obtain ⟨s, rfl, hread⟩ := readBoundEnd_of_end (.inl rfl) hs
      exact hread _ ',' [] (.inr rfl)
    case filterEnd => exact readExpressionEnd_before_comma hs
    case computedEnd => exact readExpressionEnd_before_comma hs
    case number read =>
      have hends : ∀ c, c = ']' ∨ c = ',' → continuesNumber read c = false := by
        rintro c (rfl | rfl) <;> simp [continuesNumber]
      rw [readNumber, if_neg (by simp [hends]), endNumber] at hs
      rw [before, readNumber, if_neg (by simp [hends]), endNumber]
      split at hs <;> cases hs
      rfl
    case operandName name =>
      rw [readOperandName, if_neg (by decide), if_neg (by decide), endOperandName] at hs
      rw [before, readOperandName, if_neg (by decide), if_neg (by decide), endOperandName]
      split at hs <;> cases hs
      rfl
    case patternEnd read =>
      rw [readPatternEnd, if_neg (by decide), endPattern] at hs
      rw [before, readPatternEnd, if_neg (by decide), endPattern]
      split at hs <;> cases hs
      rfl
    -- the bracket is read
    case elementEnd =>
      obtain ⟨a, -, rfl⟩ := attempt_goto_ok hs
      cases hk
    case json depth read =>
      rw [readJson, if_neg (by decide), if_pos (by decide)] at hs
      split at hs
      · unfold endJson at hs
        split at hs <;> cases hs
        cases hk
      · cases hs
        cases hk
    case quoted quote use read =>
      rw [readQuoted] at hs
      split at hs
      · cases use <;> cases hs <;> cases hk
      · rw [if_neg (by decide)] at hs
        cases hs
        cases hk
    case escape quote use read e =>
      simp only [readEscape] at hs
      split at hs
      · cases hs
        cases hk
      · cases hs
        cases hk
      · cases hs
      · cases hs
      · split at hs <;> cases hs
    case jsonString | jsonEscape | pattern | patternEscape =>
      cases hs
      cases hk
    all_goals cases hs

/-- What is read up to a bracket is read up to a comma in its place. -/
theorem Reaches.before_comma (h : Reaches env (m.append [']']) k) (hk : k.rest = [']']) :
    Reaches env (m.append [',']) (k.before [',']) := by
  have hshort : ∀ m : Machine, m.rest = [] → (m.append [']']).before [','] = m.append [','] := by
    intro m hr
    rw [append, append, before, hr]
    rfl
  generalize hm : m.append [']'] = m' at h
  induction h generalizing m with
  | refl n =>
    subst hm
    rw [hshort m (List.append_left_eq_self.1 hk)]
    exact .refl _
  | @step n j k hs hreach ih =>
    subst hm
    by_cases hr : m.rest = []
    · -- only the bracket is left, so it is not read
      have hj : j.rest = [']'] := by
        obtain he | ⟨c, he⟩ := rest_of_step hs
        · rw [he, append, hr]
          rfl
        · have hle := hreach.rest_suffix.length_le
          have hlength := congrArg List.length he
          rw [append, hr] at hlength
          simp only [hk, List.nil_append, List.length_cons, List.length_nil] at hle hlength
          omega
      have hstep := step_before_comma (by rw [append, hr]; rfl) hs hj
      rw [hshort m hr] at hstep
      have hj' : (j.before []).append [']'] = j := by
        rw [before, append, List.nil_append, ← hj]
      exact .step hstep (ih hk hj')
    · rw [step_append hr] at hs
      obtain ⟨j', hj', rfl⟩ := map_eq_ok hs
      have hstep : (m.append [',']).step env = .ok (j'.append [',']) := by
        rw [step_append hr, hj']
        rfl
      exact .step hstep (ih hk rfl)

end Machine

/-- The reader takes a text for an element of a bracket list: up to the bracket behind it, it makes of it a branch with
some occurrences of the root, and nothing of what is around it is needed for this. -/
def ReadsElement (env : Env) (text : String) (b : Branch) (roots : Nat) : Prop :=
  ∃ position, Machine.Reaches env ⟨text.toList ++ [']'], .start, [.element, .elementEnd, .path], .empty, 0⟩
    ⟨[']'], position, [.elementEnd, .path], ⟨b.items.reverse, []⟩, roots⟩

/-- Whatever is an element by its syntax is read as one, in each of its texts. -/
theorem Syntax.Element.readsElement (e : Syntax.Element env) {text : String} (h : Syntax.IsTextOf e.tokens text) :
    ReadsElement env text (e.branch 0) e.roots := by
  obtain ⟨blanks, body, hb, hw, htext⟩ := h
  have hleads : Syntax.Leads env ⟨e.tokens ++ [.char ']'], [.element, .elementEnd, .path], .empty, 0⟩
      ⟨[.char ']'], [.elementEnd, .path], (e.branch 0).assembled .empty, 0 + e.roots⟩ := e.reads (.inl rfl) nofun
  obtain ⟨later, hreach⟩ := hleads.reaches_last rfl rfl hb hw .start
  have hempty : (e.branch 0).assembled .empty = ⟨(e.branch 0).items.reverse, []⟩ :=
    congrArg (Assembly.mk · []) (List.append_nil _)
  rw [← htext, Nat.zero_add, hempty] at hreach
  exact ⟨later, hreach⟩

/-- The text of an element of a bracket list. -/
structure ElementText (env : Env) where
  text : String
  branch : Branch
  roots : Nat
  reads : ReadsElement env text branch roots

namespace Syntax.Branch

/-- The branch with other numbers for the occurrences of the root. -/
def renumber (f : Nat → Nat) (b : Branch) : Branch := ⟨b.anchor, renumberPath f b.path⟩

theorem items_renumber (f : Nat → Nat) (b : Branch) : b.items.map (Item.renumber f) = (b.renumber f).items := by
  obtain ⟨anchor, path⟩ := b
  cases anchor with
  | none => rfl
  | some anchor => cases anchor <;> simp [items, renumber, Item.renumber, Anchor.instr, Instr.renumber]

end Syntax.Branch

namespace ElementText

/-- The branches of elements, the first of which has the next number for its first occurrence of the root. -/
def branches (k : Nat) : List (ElementText env) → List Branch
  | [] => []
  | e :: es => e.branch.renumber (k + ·) :: branches (k + e.roots) es

/-- How many occurrences of the root there are behind some elements. -/
def rootsBehind (k : Nat) : List (ElementText env) → Nat
  | [] => k
  | e :: es => rootsBehind (k + e.roots) es

/-- Elements, each behind a comma. -/
def furtherText (es : List (ElementText env)) : List Char := es.flatMap fun e => ',' :: e.text.toList

/-- Where an element can stand, it is read up to what comes behind it. -/
theorem reaches (e : ElementText env) {c : Char} (hc : c = ']' ∨ c = ',') (more : List Char) (position : Text.Position)
    {base : Assembly} (hb : base.pending = []) (hclear : base.Clear) (k : Nat) : ∃ position',
      Machine.Reaches env ⟨e.text.toList ++ c :: more, position, [.element, .elementEnd, .path], base, k⟩
        ⟨c :: more, position', [.elementEnd, .path], base.under (e.branch.renumber (k + ·)).items.reverse [],
          k + e.roots⟩ := by
  obtain ⟨place, hreads⟩ := e.reads
  have hup : Machine.Reaches env ⟨e.text.toList ++ [c], .start, [.element, .elementEnd, .path], .empty, 0⟩
      ⟨[c], place, [.elementEnd, .path], ⟨e.branch.items.reverse, []⟩, e.roots⟩ := by
    obtain rfl | rfl := hc
    · exact hreads
    · exact Machine.Reaches.before_comma (m := ⟨e.text.toList, .start, _, .empty, 0⟩) hreads rfl
  have hatop : Machine.Atop (k + ·) base more ⟨e.text.toList ++ [c], .start, [.element, .elementEnd, .path], .empty, 0⟩
      ⟨e.text.toList ++ c :: more, position, [.element, .elementEnd, .path], base, k⟩ := ⟨by simp, rfl, rfl, rfl⟩
  obtain ⟨⟨rest, position', modes, assembly, roots⟩, hn, hrest, hmodes, hassembly, hroots⟩ :=
    hup.atop (f := (k + ·)) (by simp) (by simp) (fun _ => rfl) (hb ▸ firm_nil) (.inr hclear) hatop
  dsimp only at hrest hmodes hassembly hroots
  subst hrest hmodes hassembly hroots
  refine ⟨position', ?_⟩
  rwa [Assembly.atop, List.map_reverse, e.branch.items_renumber] at hn

theorem furtherText_cases (es : List (ElementText env)) (more : List Char) :
    ∃ c rest, furtherText es ++ ']' :: more = c :: rest ∧ (c = ']' ∨ c = ',') := by
  cases es with
  | nil => exact ⟨']', more, rfl, .inl rfl⟩
  | cons e es => exact ⟨',', _, rfl, .inr rfl⟩

variable {a : Assembly} {more : List Char}

/-- Behind some elements a list is read to its end. -/
theorem reaches_further (ha : a.pending = []) (first : Branch) (others : List Branch) (es : List (ElementText env))
    (position : Text.Position) (k : Nat) : ∃ position',
      Machine.Reaches env ⟨furtherText es ++ ']' :: more, position, [.elementEnd, .path], a.withList first others, k⟩
        ⟨more, position', [.path], a.pushPath (bracketSelectors first (others ++ branches k es)),
          rootsBehind k es⟩ := by
  induction es generalizing others position k with
  | nil =>
    refine ⟨position.after ']', .step ?_ (.refl _)⟩
    show (Machine.attempt ⟨more, position.after ']', _, a.withList first others, k⟩ Assembly.closeUnion).map _ = _
    rw [Machine.attempt_of_ok (Assembly.closeUnion_withList first others), branches, List.append_nil]
    rfl
  | cons e es ih =>
    have hnext : ((a.withList first others).pushMark .separator).under (e.branch.renumber (k + ·)).items.reverse [] =
        a.withList first (others ++ [e.branch.renumber (k + ·)]) := by
      simp [Assembly.under, Assembly.withList, Assembly.pushMark, listItems]
    obtain ⟨c, rest, hrest, hc⟩ := furtherText_cases es more
    obtain ⟨p, hp⟩ := e.reaches hc rest (position.after ',')
      (show ((a.withList first others).pushMark .separator).pending = [] from ha) (Assembly.clear_pushMark _ _) k
    rw [hnext, ← hrest] at hp
    obtain ⟨p', hp'⟩ := ih (others ++ [e.branch.renumber (k + ·)]) p (k + e.roots)
    rw [List.append_assoc] at hp'
    refine ⟨p', .step ?_ (hp.trans hp')⟩
    rw [furtherText, List.flatMap_cons, List.append_assoc]
    rfl

/-- A bracket list is read behind a path. -/
theorem reaches_list (ha : a.pending = []) (e : ElementText env) (es : List (ElementText env))
    (position : Text.Position) (k : Nat) : ∃ position',
      Machine.Reaches env ⟨'[' :: (e.text.toList ++ (furtherText es ++ ']' :: more)), position, [.path], a, k⟩
        ⟨more, position', [.path],
          a.pushPath (bracketSelectors (e.branch.renumber (k + ·)) (branches (k + e.roots) es)),
          rootsBehind (k + e.roots) es⟩ := by
  have hfirst : (a.pushMark .union).under (e.branch.renumber (k + ·)).items.reverse [] =
      a.withList (e.branch.renumber (k + ·)) [] := by
    simp [Assembly.under, Assembly.withList, Assembly.pushMark, listItems]
  obtain ⟨c, rest, hrest, hc⟩ := furtherText_cases es more
  obtain ⟨p, hp⟩ := e.reaches hc rest (position.after '[') (show (a.pushMark .union).pending = [] from ha)
    (Assembly.clear_pushMark a .union) k
  rw [hfirst, ← hrest] at hp
  obtain ⟨p', hp'⟩ := reaches_further ha (e.branch.renumber (k + ·)) [] es p (k + e.roots)
  exact ⟨p', .step rfl (hp.trans hp')⟩

end ElementText

end PathQuery
