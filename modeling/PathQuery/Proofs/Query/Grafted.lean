import PathQuery.Proofs.Query.Appended
import PathQuery.Proofs.Query.Renumber

namespace PathQuery

open Role
open Syntax (Anchor)

variable {f : Nat → Nat} {path : List Selector} {first : Instr}

namespace Item

def renumber (f : Nat → Nat) : Item → Item
  | instr i => instr (i.renumber f)
  | mark m => mark m

/-- A kind of items that are marks, whatever the numbers. -/
structure IsMark (isMark : Item → Bool) : Prop where
  renumber : ∀ (f : Nat → Nat) i, isMark (renumber f i) = isMark i
  instr : ∀ i, isMark (.instr i) = false

theorem isMark_of {isMark : Item → Bool} (h : ∀ i, isMark (.instr i) = false) : IsMark isMark := by
  refine ⟨?_, h⟩
  intro f i
  cases i with
  | instr i => rw [renumber, h, h]
  | mark m => rfl

theorem isAnchored_renumber (i : Item) : (i.renumber f).isAnchored = i.isAnchored := by
  cases i with
  | mark m => rfl
  | instr i => cases i <;> simp [renumber, Instr.renumber, isAnchored]

theorem mapM_renumber (items : List Item) :
    (items.map (renumber f)).mapM instr? = (items.mapM instr?).map (renumberProgram f) := by
  induction items with
  | nil => simp [renumberProgram]
  | cons i items ih =>
    rw [List.map_cons, List.mapM_cons, List.mapM_cons, ih]
    cases i with
    | mark m => rfl
    | instr i => cases items.mapM instr? <;> simp [renumber, instr?, renumberProgram]

end Item

open Item (IsMark isMark_of)

theorem Program.ofItems_renumber (items : List Item) :
    Program.ofItems (items.map (Item.renumber f)) = (Program.ofItems items).map (renumberProgram f) := by
  rw [ofItems, ofItems, Item.mapM_renumber]
  cases items.mapM Item.instr? with
  | none => rfl
  | some p =>
    simp only [Option.map_some, Program.height?_renumber]
    split <;> rfl

theorem splitItems_renumber {isBorder : Item → Bool} (hb : IsMark isBorder) (items : List Item) :
    splitItems isBorder (items.map (Item.renumber f)) =
      (splitItems isBorder items).map (List.map (Item.renumber f)) := by
  induction items with
  | nil => rfl
  | cons i items ih =>
    rw [List.map_cons, splitItems, splitItems, hb.renumber, ih]
    split
    · rfl
    · cases splitItems isBorder items <;> rfl

namespace Assembly

theorem argumentsOf_renumber (items : List Item) :
    argumentsOf (items.map (Item.renumber f)) = (argumentsOf items).map (renumberBranches f) := by
  have hb : IsMark Item.isArgument := isMark_of fun _ => rfl
  have hparts : ∀ parts : List (List Item),
      (if (parts.map (List.map (Item.renumber f))).getLast?.any List.isEmpty then
        (parts.map (List.map (Item.renumber f))).dropLast else parts.map (List.map (Item.renumber f))) =
      (if parts.getLast?.any List.isEmpty then parts.dropLast else parts).map (List.map (Item.renumber f)) := by
    intro parts
    have hlast : (parts.map (List.map (Item.renumber f))).getLast?.any List.isEmpty =
        parts.getLast?.any List.isEmpty := by
      rw [List.getLast?_map]
      cases parts.getLast? <;> simp
    rw [hlast]
    split <;> simp
  rw [argumentsOf, argumentsOf, splitItems_renumber hb, hparts, mapM_map_eq Program.ofItems_renumber]
  congr 1
  exact funext fun ps => (renumberBranches_eq ps).symm

theorem branchOf_renumber (items : List Item) :
    branchOf (items.map (Item.renumber f)) = (branchOf items).map (renumberProgram f) := by
  have hhead : (items.map (Item.renumber f)).head?.any Item.isAnchored = items.head?.any Item.isAnchored := by
    rw [List.head?_map]
    cases items.head? <;> simp [Item.isAnchored_renumber]
  rw [branchOf, branchOf, hhead, ← Program.ofItems_renumber]
  congr 1
  split
  · rfl
  · simp [Item.renumber, Instr.renumber]

end Assembly

/-- Items behind a path, beside those that the same text gives behind another path and start: at the bottom there are
the paths, one of which is the other path with what has been added to the first, and all above is the same but for the
numbers of the occurrences. -/
inductive Grafted (f : Nat → Nat) (path : List Selector) (first : Instr) : List Item → List Item → Prop
  | path (steps : List Selector) :
      Grafted f path first [.instr (.path steps), .instr .current]
        [.instr (.path (path ++ renumberPath f steps)), .instr first]
  | item (i : Item) {items items' : List Item} (h : Grafted f path first items items') :
      Grafted f path first (i :: items) (i.renumber f :: items')

namespace Grafted

variable {items items' : List Item}

theorem instr {i : Instr} (hi : i.renumber f = i) (h : Grafted f path first items items') :
    Grafted f path first (.instr i :: items) (.instr i :: items') := by
  have h' := h.item (.instr i)
  rwa [Item.renumber, hi] at h'

theorem pushPath (h : Grafted f path first items items') (steps : List Selector) (pending : List Pending) :
    Grafted f path first (Assembly.pushPath ⟨items, pending⟩ steps).items
      (Assembly.pushPath ⟨items', pending⟩ (renumberPath f steps)).items := by
  cases h with
  | path others =>
    show Grafted f path first [.instr (.path (others ++ steps)), _]
      [.instr (.path (path ++ renumberPath f others ++ renumberPath f steps)), _]
    rw [List.append_assoc, ← renumberPath_append]
    exact .path _
  | item i h =>
    cases i with
    | mark m => exact (h.item (.mark m)).item (.instr (.path steps))
    | instr i =>
      cases i with
      | path others =>
        show Grafted f path first (.instr (.path (others ++ steps)) :: _)
          (.instr (.path (renumberPath f others ++ renumberPath f steps)) :: _)
        rw [← renumberPath_append]
        exact h.item (.instr (.path _))
      | _ => exact (h.item (.instr _)).item (.instr (.path steps))

/-- The latest mark of a kind stands in the same place, or there is none. -/
theorem dropWhile {isMark : Item → Bool} (hm : IsMark isMark) (h : Grafted f path first items items') :
    items.dropWhile (!isMark ·) = [] ∧ items'.dropWhile (!isMark ·) = [] ∨
      ∃ m rest rest', items.dropWhile (!isMark ·) = m :: rest ∧
        items'.dropWhile (!isMark ·) = m.renumber f :: rest' ∧ Grafted f path first rest rest' ∧
        items'.takeWhile (!isMark ·) = (items.takeWhile (!isMark ·)).map (Item.renumber f) := by
  induction h with
  | path steps => exact .inl (by simp [hm.instr])
  | @item i items items' h ih =>
    cases hi : isMark i with
    | true =>
      refine .inr ⟨i, items, items', ?_, ?_, h, ?_⟩
      · simp [hi]
      · simp [hm.renumber, hi]
      · simp [hm.renumber, hi]
    | false =>
      obtain ⟨he, he'⟩ | ⟨m, rest, rest', he, he', hr, ht⟩ := ih
      · exact .inl (by simp [hm.renumber, hi, he, he'])
      · exact .inr ⟨m, rest, rest', by simp [hi, he], by simp [hm.renumber, hi, he'], hr,
          by simp [hm.renumber, hi, ht]⟩

theorem of_pair {i j : Item} (h : Grafted f path first items [i, j]) :
    ∃ steps, items = [.instr (.path steps), .instr .current] := by
  cases h with
  | path steps => exact ⟨steps, rfl⟩
  | item _ h =>
    cases h with
    | item _ h => cases h

theorem of_bottom {steps : List Selector} (h : Grafted f path first [.instr (.path steps), .instr .current] items') :
    items' = [.instr (.path (path ++ renumberPath f steps)), .instr first] := by
  cases h with
  | path steps => rfl
  | item _ h =>
    cases h with
    | item _ h => cases h

theorem head?_any {isMark : Item → Bool} (hm : IsMark isMark) (h : Grafted f path first items items') :
    items'.head?.any isMark = items.head?.any isMark := by
  cases h with
  | path steps => simp [hm.instr]
  | item i h => simp [hm.renumber]

end Grafted

namespace Assembly

/-- An assembly behind a path, beside one behind another path. -/
structure Grafts (f : Nat → Nat) (path : List Selector) (first : Instr) (a b : Assembly) : Prop where
  items : Grafted f path first a.items b.items
  pending : b.pending = a.pending

namespace Grafts

variable {a b : Assembly}

theorem push (h : a.Grafts f path first b) {i : Instr} (hi : i.renumber f = i) :
    (a.push i).Grafts f path first (b.push i) :=
  ⟨h.items.instr hi, h.pending⟩

theorem pushMark (h : a.Grafts f path first b) (m : Mark) : (a.pushMark m).Grafts f path first (b.pushMark m) :=
  ⟨h.items.item (.mark m), h.pending⟩

theorem pushPath (h : a.Grafts f path first b) (steps : List Selector) :
    (a.pushPath steps).Grafts f path first (b.pushPath (renumberPath f steps)) := by
  obtain ⟨items, pending⟩ := a
  obtain ⟨items', pending'⟩ := b
  obtain ⟨hi, rfl⟩ := h
  refine ⟨hi.pushPath steps pending', ?_⟩
  have hp : ∀ items steps, (Assembly.pushPath ⟨items, pending'⟩ steps).pending = pending' := by
    intro items steps
    unfold Assembly.pushPath
    split <;> rfl
  rw [hp, hp]

theorem pushSelector (h : a.Grafts f path first b) (x : Selector) :
    (a.pushSelector x).Grafts f path first (b.pushSelector (x.renumber f)) := by
  have h' := h.pushPath [x]
  rwa [renumberPath, renumberPath] at h'

theorem openScope (h : a.Grafts f path first b) (m : Mark) : (a.openScope m).Grafts f path first (b.openScope m) :=
  ⟨h.items.item (.mark m), by rw [Assembly.openScope, Assembly.openScope, h.pending]⟩

theorem openGroup (h : a.Grafts f path first b) : a.openGroup.Grafts f path first b.openGroup :=
  ⟨h.items, by rw [Assembly.openGroup, Assembly.openGroup, h.pending]⟩

theorem hasOpenGroup (h : a.Grafts f path first b) : b.hasOpenGroup = a.hasOpenGroup := by
  rw [Assembly.hasOpenGroup, h.pending]
  rfl

theorem settle (op : Operator) {items items' : List Item} (h : Grafted f path first items items')
    (pending : List Pending) : (settle op items pending).Grafts f path first (settle op items' pending) := by
  induction pending generalizing items items' with
  | nil => exact ⟨h, rfl⟩
  | cons top pending ih =>
    cases top with
    | operator top =>
      rw [Assembly.settle, Assembly.settle]
      split
      · exact ih (h.instr top.renumber_instr)
      · exact ⟨h, rfl⟩
    | group => exact ⟨h, rfl⟩
    | scope => exact ⟨h, rfl⟩

theorem pushOperator (h : a.Grafts f path first b) (op : Operator) :
    (a.pushOperator op).Grafts f path first (b.pushOperator op) := by
  have hs := settle op h.items a.pending
  refine ⟨?_, ?_⟩
  · show Grafted f path first (Assembly.settle op a.items a.pending).items
      (Assembly.settle op b.items b.pending).items
    rw [h.pending]
    exact hs.items
  · show .operator op :: (Assembly.settle op b.items b.pending).pending =
      .operator op :: (Assembly.settle op a.items a.pending).pending
    rw [h.pending, hs.pending]

theorem settled (h : a.Grafts f path first b) : a.settled.Grafts f path first b.settled := by
  have hall : ∀ (pending : List Pending) {items items' : List Item}, Grafted f path first items items' →
      (settleAll items pending).Grafts f path first (settleAll items' pending) := by
    intro pending
    induction pending with
    | nil => exact fun h => ⟨h, rfl⟩
    | cons top pending ih =>
      intro items items' h
      cases top with
      | operator op => exact ih (h.instr op.renumber_instr)
      | group => exact ⟨h, rfl⟩
      | scope => exact ⟨h, rfl⟩
  rw [Assembly.settled, Assembly.settled, h.pending]
  exact hall a.pending h.items

/-- What waits behind the operators decides whether a group or scope can be closed. -/
theorem cases_settled (h : a.Grafts f path first b) : ∃ items items' pending, a.settled = ⟨items, pending⟩ ∧
    b.settled = ⟨items', pending⟩ ∧ Grafted f path first items items' := by
  have hs := h.settled
  generalize a.settled = c at hs
  generalize b.settled = d at hs
  obtain ⟨items, pending⟩ := c
  obtain ⟨items', pending'⟩ := d
  obtain ⟨hi, rfl⟩ := hs
  exact ⟨items, items', pending', rfl, rfl, hi⟩

theorem closeGroup (h : a.Grafts f path first b) :
    Coupled (Grafts f path first) a.closeGroup b.closeGroup := by
  obtain ⟨items, items', pending, ha, hb, hi⟩ := h.cases_settled
  rw [Assembly.closeGroup, Assembly.closeGroup, ha, hb]
  cases pending with
  | nil => exact .error _ _
  | cons top pending => cases top <;> first | exact .ok ⟨hi, rfl⟩ | exact .error _ _

theorem settleScope (h : a.Grafts f path first b) :
    Coupled (Grafts f path first) a.settleScope b.settleScope := by
  obtain ⟨items, items', pending, ha, hb, hi⟩ := h.cases_settled
  rw [Assembly.settleScope, Assembly.settleScope, ha, hb]
  cases pending with
  | nil => exact .error _ _
  | cons top pending => cases top <;> first | exact .ok ⟨hi, rfl⟩ | exact .error _ _

theorem closeScope (h : a.Grafts f path first b) :
    Coupled (Grafts f path first) a.closeScope b.closeScope := by
  obtain ⟨items, items', pending, ha, hb, hi⟩ := h.cases_settled
  rw [Assembly.closeScope, Assembly.closeScope, ha, hb]
  cases pending with
  | nil => exact .error _ _
  | cons top pending => cases top <;> first | exact .ok ⟨hi, rfl⟩ | exact .error _ _

/-- What is taken back to a mark is the same but for the numbers of the occurrences. -/
theorem takeTo {isMark : Item → Bool} (hm : IsMark isMark) (h : a.Grafts f path first b) :
    Coupled (fun x y => y.1 = x.1.renumber f ∧ y.2.1 = x.2.1.map (Item.renumber f) ∧ x.2.2.Grafts f path first y.2.2)
      (a.takeTo isMark) (b.takeTo isMark) := by
  obtain ⟨he, he'⟩ | ⟨m, rest, rest', he, he', hr, ht⟩ := h.items.dropWhile hm
  · simp only [Assembly.takeTo, he, he']
    exact .error _ _
  · simp only [Assembly.takeTo, he, he', ht]
    exact .ok ⟨rfl, List.map_reverse.symm, hr, h.pending⟩

/-- A selector that is made of the items in a construct goes to what is around the construct. -/
theorem takeProgram {isMark : Item → Bool} (hm : IsMark isMark) {x : Program → Selector}
    (hx : ∀ p, (x p).renumber f = x (renumberProgram f p)) (h : a.Grafts f path first b) :
    Coupled (Grafts f path first)
      (a.takeTo isMark >>= fun taken => Program.ofItems taken.2.1 >>= fun p => pure (taken.2.2.pushSelector (x p)))
      (b.takeTo isMark >>= fun taken => Program.ofItems taken.2.1 >>= fun p =>
        pure (taken.2.2.pushSelector (x p))) := by
  refine (h.takeTo hm).bind ?_
  rintro ⟨m, items, c⟩ ⟨m', items', d⟩ ⟨-, rfl, hc⟩
  dsimp only
  rw [Program.ofItems_renumber]
  refine (Coupled.of_map _ _).bind ?_
  rintro p _ rfl
  rw [← hx]
  exact .ok (hc.pushSelector (x p))

theorem closeExpression {isMark : Item → Bool} (hm : IsMark isMark) {x : Program → Selector}
    (hx : ∀ p, (x p).renumber f = x (renumberProgram f p)) (h : a.Grafts f path first b) :
    Coupled (Grafts f path first) (a.closeExpression isMark x) (b.closeExpression isMark x) :=
  h.closeScope.bind fun _ _ hc => hc.takeProgram hm hx

theorem closeArgument (h : a.Grafts f path first b) :
    Coupled (Grafts f path first) a.closeArgument b.closeArgument :=
  h.settleScope.map fun _ _ hc => hc.pushMark .argument

theorem closeLastArgument (h : a.Grafts f path first b) :
    Coupled (Grafts f path first) a.closeLastArgument b.closeLastArgument := by
  have hm : IsMark fun i => i.isCall || i.isArgument := isMark_of fun _ => rfl
  rw [Assembly.closeLastArgument, Assembly.closeLastArgument, h.items.head?_any hm]
  split
  · exact .ok h
  · exact h.closeArgument

theorem closeCall (h : a.Grafts f path first b) : Coupled (Grafts f path first) a.closeCall b.closeCall := by
  refine h.closeLastArgument.bind fun _ _ h => h.closeScope.bind fun _ _ h => ?_
  refine (h.takeTo (isMark_of fun _ => rfl)).bind ?_
  rintro ⟨m, items, c⟩ ⟨m', items', d⟩ ⟨rfl, rfl, hc⟩
  cases m with
  | instr i => exact .error _ _
  | mark m =>
    cases m with
    | call g =>
      dsimp only [Item.renumber]
      rw [argumentsOf_renumber]
      refine (Coupled.of_map _ _).bind ?_
      rintro ps _ rfl
      have hlength : (renumberBranches f ps).length = ps.length := by simp [renumberBranches_eq]
      rw [hlength]
      split
      · have hp := hc.pushSelector (.call g ps)
        rw [Selector.renumber] at hp
        exact .ok hp
      · exact .error _ _
    | _ => exact .error _ _

theorem closeUnion (h : a.Grafts f path first b) : Coupled (Grafts f path first) a.closeUnion b.closeUnion := by
  refine (h.takeTo (isMark_of fun _ => rfl)).bind ?_
  rintro ⟨m, items, c⟩ ⟨m', items', d⟩ ⟨-, rfl, hc⟩
  dsimp only
  have hunion : Coupled (Grafts f path first)
      ((splitItems Item.isSeparator items).mapM branchOf >>= fun ps => pure (c.pushSelector (.union ps)))
      ((splitItems Item.isSeparator (items.map (Item.renumber f))).mapM branchOf >>= fun ps =>
        pure (d.pushSelector (.union ps))) := by
    rw [splitItems_renumber (isMark_of fun _ => rfl), mapM_map_eq branchOf_renumber]
    refine (Coupled.of_map _ _).bind ?_
    rintro ps _ rfl
    have hp := hc.pushSelector (.union ps)
    rw [Selector.renumber, renumberBranches_eq] at hp
    exact .ok hp
  -- a path that is the only branch goes on with the path around
  rcases items with _ | ⟨i, _ | ⟨j, items⟩⟩
  · exact hunion
  · cases i with
    | mark m => exact hunion
    | instr i =>
      cases i with
      | path steps => exact .ok (hc.pushPath steps)
      | _ => exact hunion
  · cases i with
    | mark m => exact hunion
    | instr i => cases i <;> exact hunion

end Grafts

end Assembly

open Assembly (Grafts)

/-- An act of the table does the same behind both paths. -/
theorem Turn.perform_grafts {r : Role} {act : Act} {next : List Role} (ht : Turn r act next) {a b : Assembly}
    (h : a.Grafts f path first b) (k : Nat) :
    Coupled (Grafts f path first) (act.perform k a) (act.perform (f k) b) := by
  cases act with
  | skip => exact .ok h
  | root =>
    have hp := (h.push (i := .root) (by rw [Instr.renumber])).pushSelector (.root k)
    rw [Selector.renumber] at hp
    exact .ok hp
  | current =>
    have hp := (h.push (i := .current) (by rw [Instr.renumber])).pushSelector .current
    rw [Selector.renumber] at hp
    exact .ok hp
  | selector x =>
    have hs : x.Simple := by
      cases ht with
      | selector hs => exact hs
      | bound hs => exact hs
      | descent => exact .descend
      | wildcard => exact .wildcard
    have hp := h.pushSelector x
    rw [hs.renumber] at hp
    exact .ok hp
  | literal v => exact .ok (h.push (by rw [Instr.renumber]))
  | operator op => exact .ok (h.pushOperator op)
  | openGroup => exact .ok h.openGroup
  | closeGroup => exact h.closeGroup
  | openUnion => exact .ok (h.pushMark .union)
  | separator => exact .ok (h.pushMark .separator)
  | closeUnion => exact h.closeUnion
  | openFilter => exact .ok (h.openScope .filter)
  | closeFilter => exact h.closeExpression (isMark_of fun _ => rfl) fun p => by rw [Selector.renumber]
  | openComputed => exact .ok (h.openScope .computed)
  | closeComputed => exact h.closeExpression (isMark_of fun _ => rfl) fun p => by rw [Selector.renumber]
  | openCall g => exact .ok ((h.push (i := .current) (by rw [Instr.renumber])).openScope (.call g))
  | closeArgument => exact h.closeArgument
  | closeCall => exact h.closeCall

namespace Machine

/-- A machine behind a path, beside one before the same text behind another path. -/
structure Grafts (f : Nat → Nat) (path : List Selector) (first : Instr) (m n : Machine) : Prop where
  rest : n.rest = m.rest
  modes : n.modes = m.modes
  assembly : m.assembly.Grafts f path first n.assembly
  roots : n.roots = f m.roots

variable {m n k : Machine} {env : Env}

namespace Grafts

theorem step (h : m.Grafts f path first n) (hf : ∀ i, f (i + 1) = f i + 1) :
    Coupled (Grafts f path first) (m.step env) (n.step env) := by
  by_cases hm : m.modes = []
  · rw [step_nil hm, step_nil (h.modes.trans hm)]
    exact .error _ _
  have hsees : n.SeesAs m := ⟨h.modes, by rw [h.rest], h.assembly.hasOpenGroup⟩
  obtain ⟨r, below, -, v, hv, hx, hy⟩ := @step_move m n env hsees hm
  rw [hx, hy, h.rest]
  cases hv with
  | refuse => exact .error _ _
  | @take past act modes next ht hmodes hc =>
    have hskip : (n.skip m.rest past).rest = (m.skip m.rest past).rest := by
      cases past with
      | false => exact h.rest
      | true =>
        cases hr : m.rest with
        | nil => rw [skip, skip, h.rest, hr]
        | cons c rest => rfl
    have hroots : f m.roots + act.roots = f (m.roots + act.roots) := by
      cases act with
      | root => exact (hf _).symm
      | _ => rfl
    have hp := ht.perform_grafts h.assembly m.roots
    rw [makes, makes, h.roots]
    generalize act.perform m.roots m.assembly = x at hp
    generalize act.perform (f m.roots) n.assembly = y at hp
    cases hp with
    | ok hab => exact .ok ⟨hskip, rfl, hab, hroots⟩
    | error => exact .error _ _

theorem reaches (h : m.Grafts f path first n) (hf : ∀ i, f (i + 1) = f i + 1) (hr : Reaches env m k) :
    ∃ k', Reaches env n k' ∧ k.Grafts f path first k' := by
  induction hr generalizing n with
  | refl m => exact ⟨n, .refl n, h⟩
  | step hs _ ih =>
    obtain ⟨n', hn', h'⟩ := (h.step hf).exists_right hs
    obtain ⟨k', hk', hg⟩ := ih h'
    exact ⟨k', .step hn' hk', hg⟩

theorem reaches_back (h : m.Grafts f path first n) (hf : ∀ i, f (i + 1) = f i + 1) (hr : Reaches env n k) :
    ∃ k', Reaches env m k' ∧ k'.Grafts f path first k := by
  induction hr generalizing m with
  | refl n => exact ⟨m, .refl m, h⟩
  | step hs _ ih =>
    obtain ⟨m', hm', h'⟩ := (h.step hf).exists_left hs
    obtain ⟨k', hk', hg⟩ := ih h'
    exact ⟨k', .step hm' hk', hg⟩

end Grafts

theorem inStep_onPath (text : List Char) (position : Text.Position) (anchor : Anchor) (path : List Selector)
    (roots : Nat) : (onPath text position anchor path roots).InStep := by
  refine ⟨⟨.inl rfl, trivial⟩, .singleton _, ?_, ?_⟩
  · rintro r below ⟨⟩
    exact ⟨.empty, _, [], .query, .query anchor path, rfl⟩
  · rintro below ⟨⟩

/-- Where nothing follows, the path is the query. -/
theorem run_onPath_nil (position : Text.Position) (anchor : Anchor) (path : List Selector) (k : Nat) :
    (onPath [] position anchor path k).run env = .ok [anchor.instr, .path path] := by
  rw [run, if_pos (isFinished_iff.2 ⟨rfl, rfl⟩), onPath, Assembly.finish_withPath (by cases anchor <;> rfl)]
  rfl

/-- A text that goes on with a path adds these steps, whatever the path is. -/
def AddsSteps (env : Env) (text : List Char) (steps : List Selector) : Prop :=
  ∀ position anchor path k, (onPath text position anchor path k).run env =
    .ok [anchor.instr, .path (path ++ renumberPath (k + ·) steps)]

theorem grafts_onPath (text : List Char) (p q : Text.Position) (anchor : Anchor) (path : List Selector) (k : Nat) :
    (onPath text p .current [] 0).Grafts (k + ·) path anchor.instr (onPath text q anchor path k) := by
  refine ⟨rfl, rfl, ⟨?_, rfl⟩, rfl⟩
  have h := @Grafted.path (k + ·) path anchor.instr []
  rwa [renumberPath, List.append_nil] at h

/-- What goes on with one path goes on with every path, and adds the same steps. -/
theorem exists_addsSteps {text : List Char} {position : Text.Position} {anchor : Anchor} {path : List Selector}
    {k : Nat} {p : Program} (h : (onPath text position anchor path k).run env = .ok p) :
    ∃ steps, AddsSteps env text steps := by
  obtain ⟨e, he, hfin, -⟩ := exists_reaches h
  obtain ⟨b, hb, hg⟩ := (grafts_onPath text .start position anchor path k).reaches_back (fun _ => rfl) he
  obtain ⟨anchor', path', ha⟩ := Inside.eq_withPath ((he.inStep (inStep_onPath _ _ _ _ _)).complete hfin)
  obtain ⟨steps, hs⟩ : ∃ steps, b.assembly.items = [.instr (.path steps), .instr .current] := by
    have hi := hg.assembly.items
    rw [ha] at hi
    exact hi.of_pair
  refine ⟨steps, ?_⟩
  intro q other more j
  obtain ⟨c, hc, hgc⟩ := (grafts_onPath text .start q other more j).reaches (fun _ => rfl) hb
  have hassembly : c.assembly = (Assembly.empty.push other.instr).withPath (more ++ renumberPath (j + ·) steps) := by
    have hi := hgc.assembly.items
    rw [hs] at hi
    have hp : c.assembly.pending = [] := by
      rw [hgc.assembly.pending, ← hg.assembly.pending, ha]
      rfl
    have hitems := hi.of_bottom
    generalize c.assembly = assembly at hitems hp
    obtain ⟨items, pending⟩ := assembly
    cases hitems
    cases hp
    rfl
  have hfinished : c.isFinished = true := by
    rw [isFinished_iff] at hfin ⊢
    rw [hgc.rest, ← hg.rest, hgc.modes, ← hg.modes]
    exact hfin
  rw [hc.run, run, if_pos hfinished, hassembly, Assembly.finish_withPath (by cases other <;> rfl)]
  rfl

end Machine

end PathQuery
