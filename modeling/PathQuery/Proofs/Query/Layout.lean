import PathQuery.Proofs.Query.Assembly
import PathQuery.Proofs.Query.Trail
import PathQuery.Proofs.Query.Moves

namespace PathQuery

/-- A construct that is open. -/
inductive Frame
  | list
  | filter
  | computed
  | call

namespace Frame

inductive Opens : Frame → Mark → Prop
  | list : Opens .list .union
  | filter : Opens .filter .filter
  | computed : Opens .computed .computed
  | call (f : Function) : Opens .call (.call f)

end Frame

namespace Item

/-- What can be read inside a construct that holds expressions. -/
inductive InExpression : Item → Prop
  | instr (i : Instr) : InExpression (.instr i)
  | argument : InExpression (.mark .argument)

end Item

/-- What can be read inside a construct. -/
def Frame.Holds : Frame → List Item → Prop
  | list, items => Pieces items
  | _, items => ∀ i ∈ items, i.InExpression

/-- The items of the open constructs, innermost first, each behind its mark. -/
def Layout : List Frame → List Item → Prop
  | [], items => Pieces items
  | frame :: fs, items =>
    ∃ inner m outer, items = inner ++ .mark m :: outer ∧ frame.Opens m ∧ frame.Holds inner ∧ Layout fs outer

/-- What waits in the open constructs: every one but a bracket list has its scope, and only there operators and
parentheses can wait. -/
inductive Waits : List Frame → List Pending → Prop
  | base : Waits [] []
  | list {fs : List Frame} {pending : List Pending} : Waits fs pending → Waits (.list :: fs) pending
  | scope {frame : Frame} {fs : List Frame} {pending : List Pending} :
      frame ≠ .list → Waits fs pending → Waits (frame :: fs) (.scope :: pending)
  | operator {frame : Frame} {fs : List Frame} {pending : List Pending} (op : Operator) :
      frame ≠ .list → Waits (frame :: fs) pending → Waits (frame :: fs) (.operator op :: pending)
  | group {frame : Frame} {fs : List Frame} {pending : List Pending} :
      frame ≠ .list → Waits (frame :: fs) pending → Waits (frame :: fs) (.group :: pending)

/-- An assembly in which some constructs are open. -/
structure Laid (fs : List Frame) (a : Assembly) : Prop where
  layout : Layout fs a.items
  waits : Waits fs a.pending

variable {frame : Frame} {fs : List Frame} {a b : Assembly}

theorem Frame.holds_of_ne_list (hf : frame ≠ .list) {items : List Item} :
    frame.Holds items ↔ ∀ i ∈ items, i.InExpression := by
  cases frame with
  | list => exact absurd rfl hf
  | _ => exact Iff.rfl

theorem Selector.tidy_singleton {x : Selector} (h : x.Tidy) : ∀ y ∈ [x], y.Tidy := by
  intro y hy
  obtain rfl : y = x := by simpa using hy
  exact h

theorem Selector.Simple.tidy {x : Selector} (h : x.Simple) : x.Tidy := by
  refine .other ?_
  intro branches hb
  cases h <;> cases hb

theorem Pieces.pushPath {items : List Item} (h : Pieces items) {steps : List Selector} (hs : ∀ x ∈ steps, x.Tidy)
    (pending : List Pending) : Pieces (Assembly.pushPath ⟨items, pending⟩ steps).items := by
  unfold Assembly.pushPath
  split
  · next path rest he =>
    dsimp only at he
    subst he
    have hp : ∀ x ∈ path ++ steps, x.Tidy := by
      intro x hx
      rcases List.mem_append.1 hx with hx | hx
      · cases h.piece (.instr (.path path)) (by simp) with
        | path hpath => exact hpath x hx
        | anchor hi => cases hi
      · exact hs x hx
    constructor
    · intro i hi
      rcases List.mem_cons.1 hi with rfl | hi
      · exact .path hp
      · exact h.piece i (List.mem_cons_of_mem _ hi)
    · cases rest with
      | nil => exact .singleton _
      | cons j rest =>
        -- the path that is extended stood beside the same neighbour
        have hc := List.isChain_cons_cons.1 h.apart
        exact List.isChain_cons_cons.2 ⟨fun _ => hc.1 rfl, hc.2⟩
  · next hne =>
    constructor
    · intro i hi
      rcases List.mem_cons.1 hi with rfl | hi
      · exact .path hs
      · exact h.piece i hi
    · cases items with
      | nil => exact .singleton _
      | cons j items =>
        refine List.isChain_cons_cons.2 ⟨?_, h.apart⟩
        intro _
        cases j with
        | mark m => rfl
        | instr i =>
          cases i with
          | path path => exact absurd rfl (hne path items)
          | _ => rfl

theorem inExpression_pushPath {items : List Item} (h : ∀ i ∈ items, i.InExpression) (steps : List Selector)
    (pending : List Pending) : ∀ i ∈ (Assembly.pushPath ⟨items, pending⟩ steps).items, i.InExpression := by
  unfold Assembly.pushPath
  intro i hi
  split at hi
  · next path rest he =>
    dsimp only at he
    subst he
    rcases List.mem_cons.1 hi with rfl | hi
    · exact .instr _
    · exact h i (List.mem_cons_of_mem _ hi)
  · rcases List.mem_cons.1 hi with rfl | hi
    · exact .instr _
    · exact h i hi

/-- A path that is pushed stays behind the innermost mark. -/
theorem pushPath_append (inner outer : List Item) (m : Mark) (steps : List Selector) (pending : List Pending) :
    (Assembly.pushPath ⟨inner ++ .mark m :: outer, pending⟩ steps).items =
      (Assembly.pushPath ⟨inner, pending⟩ steps).items ++ .mark m :: outer := by
  cases inner with
  | nil => rfl
  | cons i inner =>
    cases i with
    | mark m => rfl
    | instr i => cases i <;> rfl

namespace Laid

theorem pushPath (h : Laid fs a) {steps : List Selector} (hs : ∀ x ∈ steps, x.Tidy) : Laid fs (a.pushPath steps) := by
  obtain ⟨items, pending⟩ := a
  have hp : (Assembly.pushPath ⟨items, pending⟩ steps).pending = pending := by
    unfold Assembly.pushPath
    split <;> rfl
  refine ⟨?_, by rw [hp]; exact h.waits⟩
  have hl := h.layout
  cases fs with
  | nil => exact Pieces.pushPath hl hs pending
  | cons frame fs =>
    obtain ⟨inner, m, outer, rfl, hm, hi, ho⟩ := hl
    rw [pushPath_append]
    refine ⟨_, m, outer, rfl, hm, ?_, ho⟩
    cases frame with
    | list => exact Pieces.pushPath hi hs pending
    | _ => exact inExpression_pushPath hi steps pending

theorem pushSelector (h : Laid fs a) {x : Selector} (hx : x.Tidy) : Laid fs (a.pushSelector x) :=
  h.pushPath (Selector.tidy_singleton hx)

/-- A starting point can be pushed anywhere. -/
theorem pushAnchor (h : Laid fs a) {i : Instr} (hi : i.IsAnchor) : Laid fs (a.push i) := by
  refine ⟨?_, h.waits⟩
  have hp : (Item.instr i).isPath = false := by cases hi <;> rfl
  have hl := h.layout
  cases fs with
  | nil => exact Pieces.cons hl (.anchor hi) hp
  | cons frame fs =>
    obtain ⟨inner, m, outer, he, hm, hin, ho⟩ := hl
    refine ⟨.instr i :: inner, m, outer, by simp [Assembly.push, he], hm, ?_, ho⟩
    cases frame with
    | list => exact Pieces.cons hin (.anchor hi) hp
    | _ =>
      intro j hj
      rcases List.mem_cons.1 hj with rfl | hj
      · exact .instr i
      · exact hin j hj

/-- Items of expressions can be added behind the mark of a construct that holds expressions. -/
theorem layout_append (hf : frame ≠ .list) {items others : List Item} (h : Layout (frame :: fs) items)
    (ho : ∀ i ∈ others, i.InExpression) : Layout (frame :: fs) (others ++ items) := by
  obtain ⟨inner, m, outer, rfl, hm, hin, hl⟩ := h
  refine ⟨others ++ inner, m, outer, by simp, hm, ?_, hl⟩
  rw [Frame.holds_of_ne_list hf] at hin ⊢
  intro i hi
  rcases List.mem_append.1 hi with hi | hi
  · exact ho i hi
  · exact hin i hi

theorem pushInstr (hf : frame ≠ .list) (h : Laid (frame :: fs) a) (i : Instr) : Laid (frame :: fs) (a.push i) := by
  refine ⟨?_, h.waits⟩
  have ho : ∀ j ∈ [Item.instr i], j.InExpression := by
    intro j hj
    obtain rfl : j = .instr i := by simpa using hj
    exact .instr i
  exact layout_append hf h.layout ho

theorem inExpression_settledItems (ops : List Operator) : ∀ i ∈ Assembly.settledItems ops, i.InExpression := by
  intro i hi
  obtain ⟨op, -, rfl⟩ := List.mem_map.1 (List.mem_reverse.1 hi)
  exact .instr _

theorem waits_settled (hf : frame ≠ .list) {ops : List Operator} {rest : List Pending}
    (h : Waits (frame :: fs) (ops.map .operator ++ rest)) : Waits (frame :: fs) rest := by
  induction ops with
  | nil => exact h
  | cons op ops ih =>
    cases h with
    | list _ => exact absurd rfl hf
    | operator _ _ h => exact ih h

theorem pushOperator (hf : frame ≠ .list) (h : Laid (frame :: fs) a) (op : Operator) :
    Laid (frame :: fs) (a.pushOperator op) := by
  obtain ⟨ops, rest, hp, hs⟩ := Assembly.settle_eq op a.items a.pending
  have hw : Waits (frame :: fs) rest := waits_settled hf (hp ▸ h.waits)
  unfold Assembly.pushOperator
  rw [hs]
  exact ⟨layout_append hf h.layout (inExpression_settledItems ops), .operator op hf hw⟩

theorem openGroup (hf : frame ≠ .list) (h : Laid (frame :: fs) a) : Laid (frame :: fs) a.openGroup :=
  ⟨h.layout, .group hf h.waits⟩

theorem closeGroup (hf : frame ≠ .list) (h : Laid (frame :: fs) a) (hb : a.closeGroup = .ok b) :
    Laid (frame :: fs) b := by
  obtain ⟨ops, hp, hi⟩ := Assembly.closeGroup_cases hb
  constructor
  · rw [hi]
    exact layout_append hf h.layout (inExpression_settledItems ops)
  · have hw := waits_settled hf (hp ▸ h.waits)
    cases hw with
    | list _ => exact absurd rfl hf
    | group _ hw => exact hw

theorem openUnion (h : Laid fs a) : Laid (.list :: fs) (a.pushMark .union) :=
  ⟨⟨[], .union, a.items, rfl, .list, Pieces.nil, h.layout⟩, .list h.waits⟩

theorem openScope (hf : frame ≠ .list) (h : Laid fs a) {m : Mark} (hm : frame.Opens m) :
    Laid (frame :: fs) (a.openScope m) := by
  refine ⟨⟨[], m, a.items, rfl, hm, ?_, h.layout⟩, .scope hf h.waits⟩
  rw [Frame.holds_of_ne_list hf]
  simp

theorem separator (h : Laid (.list :: fs) a) : Laid (.list :: fs) (a.pushMark .separator) := by
  obtain ⟨inner, m, outer, he, hm, hi, ho⟩ := h.layout
  refine ⟨⟨.mark .separator :: inner, m, outer, by simp [Assembly.pushMark, he], hm, ?_, ho⟩, h.waits⟩
  exact Pieces.cons hi .separator rfl

/-- Closing the scope of a construct leaves its items behind its mark. -/
theorem closeScope (hf : frame ≠ .list) (h : Laid (frame :: fs) a) (hb : a.closeScope = .ok b) :
    Layout (frame :: fs) b.items ∧ Waits fs b.pending := by
  obtain ⟨ops, hp, hi⟩ := Assembly.closeScope_cases hb
  constructor
  · rw [hi]
    exact layout_append hf h.layout (inExpression_settledItems ops)
  · have hw := waits_settled hf (hp ▸ h.waits)
    cases hw with
    | list _ => exact absurd rfl hf
    | scope _ hw => exact hw

/-- Taking the items of the innermost construct leaves the constructs around it. -/
theorem takeTo (hl : Layout (frame :: fs) a.items) (hw : Waits fs a.pending) {isMark : Item → Bool}
    (hm : ∀ m, frame.Opens m → isMark (.mark m) = true)
    (hi : ∀ items, frame.Holds items → ∀ i ∈ items, isMark i = false) {m : Item} {items : List Item}
    (h : a.takeTo isMark = .ok (m, items, b)) : Laid fs b ∧ frame.Holds items.reverse := by
  obtain ⟨own, pending⟩ := a
  obtain ⟨inner, mark, outer, rfl, ho, hin, hout⟩ := hl
  rw [Assembly.takeTo_append (hi inner hin) (hm mark ho)] at h
  cases h
  rw [List.reverse_reverse]
  exact ⟨⟨hout, hw⟩, hin⟩

/-- A construct that holds expressions is closed and its items are taken. -/
theorem takeScope (hf : frame ≠ .list) (h : Laid (frame :: fs) a) {isMark : Item → Bool}
    (hm : ∀ m, frame.Opens m → isMark (.mark m) = true) (hi : ∀ i : Item, i.InExpression → isMark i = false)
    {c : Assembly} {m : Item} {items : List Item} (hc : a.closeScope = .ok c)
    (hb : c.takeTo isMark = .ok (m, items, b)) : Laid fs b := by
  obtain ⟨hl, hw⟩ := h.closeScope hf hc
  have hitems : ∀ items, frame.Holds items → ∀ i ∈ items, isMark i = false := by
    intro items hin i hmem
    exact hi i ((Frame.holds_of_ne_list hf).1 hin i hmem)
  exact (takeTo hl hw hm hitems hb).1

theorem closeExpression {isMark : Item → Bool} {selector : Program → Selector} (hf : frame ≠ .list)
    (hm : ∀ m, frame.Opens m → isMark (.mark m) = true) (hi : ∀ i : Item, i.InExpression → isMark i = false)
    (hs : ∀ p, (selector p).Tidy) (h : Laid (frame :: fs) a) (hb : a.closeExpression isMark selector = .ok b) :
    Laid fs b := by
  obtain ⟨c, m, items, d, p, hc, hd, -, rfl⟩ := Assembly.closeExpression_cases hb
  exact (h.takeScope hf hm hi hc hd).pushSelector (hs p)

theorem closeFilter (h : Laid (.filter :: fs) a) (hb : a.closeFilter = .ok b) : Laid fs b := by
  refine closeExpression (by simp) ?_ ?_ (fun _ => .other (by simp)) h hb
  · rintro m ⟨⟩
    rfl
  · rintro i ⟨⟩ <;> rfl

theorem closeComputed (h : Laid (.computed :: fs) a) (hb : a.closeComputed = .ok b) : Laid fs b := by
  refine closeExpression (by simp) ?_ ?_ (fun _ => .other (by simp)) h hb
  · rintro m ⟨⟩
    rfl
  · rintro i ⟨⟩ <;> rfl

theorem closeArgument (h : Laid (.call :: fs) a) (hb : a.closeArgument = .ok b) : Laid (.call :: fs) b := by
  obtain ⟨c, hc, rfl⟩ := Assembly.closeArgument_cases hb
  obtain ⟨ops, rest, hp, rfl⟩ := Assembly.settleScope_cases hc
  have hw := waits_settled (by simp) (hp ▸ h.waits)
  refine ⟨?_, hw⟩
  have hi : ∀ i ∈ Item.mark .argument :: Assembly.settledItems ops, i.InExpression := by
    intro i hi
    rcases List.mem_cons.1 hi with rfl | hi
    · exact .argument
    · exact inExpression_settledItems ops i hi
  exact layout_append (by simp) h.layout hi

theorem closeCall (h : Laid (.call :: fs) a) (hb : a.closeCall = .ok b) : Laid fs b := by
  obtain ⟨c, d, m, items, e, f, arguments, hc, hd, he, -, rfl⟩ := Assembly.closeCall_cases hb
  have hlast : Laid (.call :: fs) c := by
    rcases Assembly.closeLastArgument_cases hc with rfl | hc
    · exact h
    · exact h.closeArgument hc
  have hm : ∀ m, Frame.Opens .call m → Item.isCall (.mark m) = true := by
    intro m ho
    cases ho
    rfl
  have hi : ∀ i : Item, i.InExpression → i.isCall = false := by
    intro i hi
    cases hi <;> rfl
  exact (hlast.takeScope (by simp) hm hi hd he).pushSelector (.other (by simp))

/-- The branches of a bracket list only follow paths. -/
theorem branch_trail {items : List Item} (hp : Pieces items) {branches : List Program}
    (hb : (splitItems Item.isSeparator items).mapM Assembly.branchOf = .ok branches) : ∀ p ∈ branches, p.Trail := by
  intro p hm
  obtain ⟨part, hpart, h⟩ := exists_of_mem_mapM hb hm
  obtain ⟨before, behind, rfl⟩ := (Assembly.splitItems_part Item.isSeparator items).2 part hpart
  have hown := hp.of_append
  unfold Assembly.branchOf at h
  split at h
  · exact hown.ofItems_trail h
  · exact (hown.cons (.anchor .current) rfl).ofItems_trail h

/-- Nothing waits in a bracket list itself. -/
theorem waits_around_list {pending : List Pending} (h : Waits (.list :: fs) pending) : Waits fs pending := by
  cases h with
  | list h => exact h
  | scope hf _ => exact absurd rfl hf
  | operator _ hf _ => exact absurd rfl hf
  | group hf _ => exact absurd rfl hf

theorem closeUnion (h : Laid (.list :: fs) a) (hb : a.closeUnion = .ok b) : Laid fs b := by
  obtain ⟨m, items, c, hc, hcases⟩ := Assembly.closeUnion_cases hb
  have hno : ∀ items, Frame.list.Holds items → ∀ i ∈ items, i.isUnion = false := by
    intro items hi i hmem
    cases Pieces.piece hi i hmem <;> rfl
  obtain ⟨hl, hp⟩ := takeTo h.layout (waits_around_list h.waits) (by intro _ he; cases he; rfl) hno hc
  have hitems : Pieces items := by
    have := Pieces.reverse hp
    rwa [List.reverse_reverse] at this
  rcases hcases with ⟨steps, rfl, rfl⟩ | ⟨branches, hbr, rfl⟩
  · cases hitems.piece (.instr (.path steps)) (by simp) with
    | path hs => exact hl.pushPath hs
    | anchor hi => cases hi
  · exact hl.pushSelector (.union (branch_trail hitems hbr))

theorem finish (h : Laid [] a) {p : Program} (hp : a.finish = .ok p) : p.Trail := by
  obtain ⟨ops, ho, hi⟩ := Assembly.finish_cases hp
  have hn : a.pending = [] := by
    cases hw : a.pending with
    | nil => rfl
    | cons w ws =>
      have hws := h.waits
      rw [hw] at hws
      cases hws
  obtain rfl : ops = [] := by simpa [hn] using ho.symm
  exact (Pieces.reverse h.layout).ofItems_trail hi

end Laid

namespace Role

/-- The construct that a role stands for while it is open. -/
def frame? : Role → Option Frame
  | elementEnd => some .list
  | filterEnd => some .filter
  | computedEnd => some .computed
  | arguments => some .call
  | _ => none

/-- The open constructs, innermost first. -/
def frames : List Role → List Frame
  | [] => []
  | r :: roles => r.frame?.toList ++ frames roles

/-- Which constructs may be open where a role is. -/
def Fits : Role → List Frame → Prop
  | start, fs | queryCall, fs => fs = []
  | path, fs => fs = [] ∨ fs.head? = some .list
  | element, fs | bound, fs => fs.head? = some .list
  | operand, fs | operator, fs | comparator, fs | half, fs | firstArgument, fs =>
    ∃ frame outer, fs = frame :: outer ∧ frame ≠ .list
  | selector, _ | elementEnd, _ | filterEnd, _ | computedEnd, _ | arguments, _ => True

/-- Every role is where it may be. -/
def Sound : List Role → Prop
  | [] => True
  | r :: roles => r.Fits (frames (r :: roles)) ∧ Sound roles

end Role

open Role

namespace Turn

variable {r : Role} {act : Act} {next below : List Role}

theorem sound (ht : Turn r act next) (h : Sound (r :: below)) : Sound (next ++ below) := by
  obtain ⟨hr, hb⟩ := h
  cases ht <;> simp_all [Sound, Fits, frames, frame?]

theorem laid (ht : Turn r act next) (hr : r.Fits (frames (r :: below))) {k : Nat}
    (h : Laid (frames (r :: below)) a) (hp : act.perform k a = .ok b) : Laid (frames (next ++ below)) b := by
  cases ht with
  | stay | queryName | pathStep | pathEnd | elementName | elementBound | operatorStep | operatorEnd | comparator | half
  | argument | noArgument =>
    cases hp
    exact h
  | queryRoot | elementRoot | operandRoot =>
    cases hp
    exact (h.pushAnchor .root).pushSelector (.other (by simp))
  | elementCurrent | operandCurrent =>
    cases hp
    exact (h.pushAnchor .current).pushSelector (.other (by simp))
  | selector hs | bound hs =>
    cases hp
    exact h.pushSelector hs.tidy
  | descent | wildcard =>
    cases hp
    exact h.pushSelector (.other (by simp))
  | queryCall f | operandCall f =>
    cases hp
    exact (h.pushAnchor .current).openScope (by simp) (.call f)
  | pathList | descentList | operatorList =>
    cases hp
    exact h.openUnion
  | elementFilter =>
    cases hp
    exact h.openScope (by simp) .filter
  | elementComputed =>
    cases hp
    exact h.openScope (by simp) .computed
  | nextElement =>
    cases hp
    exact h.separator
  | listEnd => exact h.closeUnion hp
  | filterEnd => exact h.closeFilter hp
  | computedEnd => exact h.closeComputed hp
  | nextArgument => exact h.closeArgument hp
  | callEnd => exact h.closeCall hp
  | literal v =>
    obtain ⟨frame, outer, hf, hne⟩ := hr
    cases hp
    have hl : Laid (frame :: outer) a := hf ▸ h
    exact hf ▸ hl.pushInstr hne (.literal v)
  | group =>
    obtain ⟨frame, outer, hf, hne⟩ := hr
    cases hp
    have hl : Laid (frame :: outer) a := hf ▸ h
    exact hf ▸ hl.openGroup hne
  | groupEnd =>
    obtain ⟨frame, outer, hf, hne⟩ := hr
    have hl : Laid (frame :: outer) a := hf ▸ h
    exact hf ▸ hl.closeGroup hne hp
  | unary op | binary op | comparison op | likes op | halfEnd op =>
    obtain ⟨frame, outer, hf, hne⟩ := hr
    cases hp
    have hl : Laid (frame :: outer) a := hf ▸ h
    exact hf ▸ hl.pushOperator hne _

end Turn

namespace Machine

/-- The modes fit to what is open in the assembly. -/
structure Fitting (m : Machine) : Prop where
  sound : Sound m.roles
  laid : Laid (frames m.roles) m.assembly

theorem fitting_start (text : List Char) : (start text).Fitting :=
  ⟨⟨rfl, trivial⟩, ⟨Pieces.nil, .base⟩⟩

theorem fitting_step {env : Env} {m n : Machine} (hm : m.Fitting) (h : m.step env = .ok n) : n.Fitting := by
  obtain ⟨r, below, act, next, hr, ht, hn⟩ := step_turns h
  have hs := hm.sound
  have hl := hm.laid
  rw [hr] at hs hl
  constructor
  · rw [hn.roles_eq]
    exact ht.sound hs
  · rw [hn.roles_eq]
    exact ht.laid hs.1 hl hn.performed

end Machine

/-- A compiled query follows a path. -/
theorem Query.trail {env : Env} {s : String} {q : Query} (h : Query.compileWith env s = .ok q) :
    q.program.Trail := by
  obtain ⟨p, hp, rfl⟩ := map_eq_ok h
  obtain ⟨m, hm, hfin, hf⟩ := Machine.run_ok Machine.fitting_step (Machine.fitting_start s.toList) hp
  have hl := hm.laid
  rw [Machine.roles_of_isFinished hfin] at hl
  exact hl.finish hf

end PathQuery
