import PathQuery.Proofs.Query.Closing
import PathQuery.Proofs.Query.Layout

namespace PathQuery

open Syntax (Anchor Branch Firm argumentItems listItems bracketSelectors)

/-- Items that are instructions and leave so many values, latest first. -/
inductive Yields : List Item → Nat → Prop
  | nil : Yields [] 0
  | instr {items : List Item} {n : Nat} (i : Instr) (h : Yields items n) (hi : i.operands ≤ n) :
      Yields (.instr i :: items) (n - i.operands + 1)

namespace Yields

variable {items : List Item} {n : Nat}

theorem program (h : Yields items n) : ∃ p : Program, items = (p.map .instr).reverse ∧ p.height? 0 = some n := by
  induction h with
  | nil => exact ⟨[], rfl, rfl⟩
  | @instr items n i h hi ih =>
    obtain ⟨p, rfl, hp⟩ := ih
    refine ⟨p ++ [i], by simp, ?_⟩
    rw [Program.height?_append, hp, Option.bind_some, Program.height?, if_pos hi]
    rfl

theorem push (h : Yields items n) (i : Instr) {k : Nat} (hi : i.operands ≤ n) (hk : k + i.operands = n + 1) :
    Yields (.instr i :: items) k := by
  obtain rfl : k = n - i.operands + 1 := by omega
  exact h.instr i hi

/-- A path extends the path before it, or takes the value before it. -/
theorem pushPath (h : Yields items n) (hn : 0 < n) (steps : List Selector) (pending : List Pending) :
    Yields (Assembly.pushPath ⟨items, pending⟩ steps).items n := by
  unfold Assembly.pushPath
  split
  · next path rest he =>
    dsimp only at he
    subst he
    have ho : ∀ p, (Instr.path p).operands = 1 := fun _ => rfl
    cases h with
    | instr _ h hi =>
      rw [ho] at hi
      refine h.push (.path _) hi ?_
      rw [ho, ho]
      omega
  · exact h.push (.path steps) hn rfl

end Yields

/-- How many binary operators wait. -/
def waiting : List Pending → Nat
  | [] => 0
  | .operator (.binary _) :: pending => waiting pending + 1
  | _ :: pending => waiting pending

/-- An expression that is being read: there is a value for each binary operator that waits, and `k` more. -/
structure Underway (k : Nat) (items : List Item) (pending : List Pending) : Prop where
  yields : Yields items (waiting pending + k)
  within : Pending.scope ∉ pending

namespace Underway

variable {items : List Item} {pending below : List Pending} {k : Nat}

theorem nil : Underway 0 [] [] := ⟨.nil, by simp⟩

theorem operand (h : Underway 0 items pending) {i : Instr} (hi : i.operands = 0) :
    Underway 1 (.instr i :: items) pending := by
  refine ⟨h.yields.push i ?_ ?_, h.within⟩
  · omega
  · omega

theorem pushPath (h : Underway 1 items pending) (steps : List Selector) (others : List Pending) :
    Underway 1 (Assembly.pushPath ⟨items, others⟩ steps).items pending :=
  ⟨h.yields.pushPath (Nat.succ_pos _) steps others, h.within⟩

theorem unary (h : Underway k items pending) (op : UnaryOp) : Underway k items (.operator (.unary op) :: pending) :=
  ⟨h.yields, by simp [h.within]⟩

theorem binary (h : Underway 1 items pending) (op : BinaryOp) : Underway 0 items (.operator (.binary op) :: pending) :=
  ⟨h.yields, by simp [h.within]⟩

theorem group (h : Underway k items pending) : Underway k items (.group :: pending) :=
  ⟨h.yields, by simp [h.within]⟩

theorem ungroup (h : Underway k items (.group :: pending)) : Underway k items pending := by
  refine ⟨h.yields, ?_⟩
  intro hm
  exact h.within (List.mem_cons_of_mem _ hm)

/-- Behind an operand an operator can be moved behind its operands. -/
theorem settle {op : Operator} (h : Underway 1 items (.operator op :: pending)) :
    Underway 1 (.instr op.instr :: items) pending := by
  obtain ⟨hy, hw⟩ := h
  refine ⟨?_, fun hm => hw (List.mem_cons_of_mem _ hm)⟩
  cases op with
  | unary op =>
    have ho : (Instr.unary op).operands = 1 := rfl
    have hn : waiting (.operator (.unary op) :: pending) = waiting pending := rfl
    rw [hn] at hy
    exact hy.push (.unary op) (by omega) (by omega)
  | binary op =>
    have ho : (Instr.binary op).operands = 2 := rfl
    have hn : waiting (.operator (.binary op) :: pending) = waiting pending + 1 := rfl
    rw [hn] at hy
    exact hy.push (.binary op) (by omega) (by omega)

/-- An operator settles a part of what waits in the expression, and nothing below. -/
theorem settle_append (h : Underway 1 items pending) (hb : Firm below) (op : Operator) (outer : List Item) :
    ∃ items' rest, Assembly.settle op (items ++ outer) (pending ++ below) = ⟨items' ++ outer, rest ++ below⟩ ∧
      Underway 1 items' rest := by
  induction pending generalizing items with
  | nil => exact ⟨items, [], hb.rests op _, h⟩
  | cons top pending ih =>
    cases top with
    | operator top =>
      by_cases hp : top.precedes op = true
      · obtain ⟨items', rest, he, hr⟩ := ih h.settle
        refine ⟨items', rest, ?_, hr⟩
        rw [List.cons_append, Assembly.settle, if_pos hp]
        exact he
      · refine ⟨items, .operator top :: pending, ?_, h⟩
        rw [List.cons_append, Assembly.settle, if_neg hp]
    | group => exact ⟨items, .group :: pending, (Syntax.firm_group _).rests op _, h⟩
    | scope => exact absurd (List.mem_cons_self) h.within

/-- Settling all operators stops at the latest parenthesis, or else at the end of the expression. -/
theorem settleAll_append (h : Underway 1 items pending) (hb : Firm below) (outer : List Item) :
    ∃ items' rest, Assembly.settleAll (items ++ outer) (pending ++ below) = ⟨items' ++ outer, rest ++ below⟩ ∧
      Underway 1 items' rest ∧ (rest = [] ∨ ∃ others, rest = .group :: others) := by
  induction pending generalizing items with
  | nil =>
    refine ⟨items, [], ?_, h, .inl rfl⟩
    rw [List.nil_append, Assembly.settleAll]
    exact hb
  | cons top pending ih =>
    cases top with
    | operator op => exact ih h.settle
    | group => exact ⟨items, .group :: pending, rfl, h, .inr ⟨pending, rfl⟩⟩
    | scope => exact absurd (List.mem_cons_self) h.within

end Underway

/-- Nothing has been read yet. -/
def Bare (items : List Item) (pending : List Pending) : Prop := items = [] ∧ pending = []

/-- Where an operand or a path is to start. Around all constructs and in a bracket list there is nothing yet. -/
inductive Fresh : Option Frame → List Item → List Pending → Prop
  | query : Fresh none [] []
  | list : Fresh (some .list) [] []
  | expression {frame : Frame} {items : List Item} {pending : List Pending} (hf : frame ≠ .list)
      (h : Underway 0 items pending) : Fresh (some frame) items pending

/-- Behind a path or an operand. The path of a query says where it starts from, that of a branch may leave it out. -/
inductive Complete : Option Frame → List Item → List Pending → Prop
  | query (anchor : Anchor) (path : List Selector) : Complete none (Branch.items ⟨some anchor, path⟩).reverse []
  | list (b : Branch) : Complete (some .list) b.items.reverse []
  | expression {frame : Frame} {items : List Item} {pending : List Pending} (hf : frame ≠ .list)
      (h : Underway 1 items pending) : Complete (some frame) items pending

/-- Where a selector may follow. -/
inductive Started : Option Frame → List Item → List Pending → Prop
  | query (anchor : Anchor) : Started none [.instr anchor.instr] []
  | branch (anchor : Anchor) : Started (some .list) [.instr anchor.instr] []
  | list : Started (some .list) [] []
  | complete {frame? : Option Frame} {items : List Item} {pending : List Pending} (h : Complete frame? items pending) :
      Started frame? items pending

/-- The assembly with more on top. -/
def Assembly.under (a : Assembly) (items : List Item) (pending : List Pending) : Assembly :=
  ⟨items ++ a.items, pending ++ a.pending⟩

/-- How the part of a construct that is being read begins, seen from what is around the construct. -/
inductive Frame.Begins : Frame → Assembly → Assembly → Prop
  | first (a : Assembly) : Begins .list a (a.pushMark .union)
  | next (a : Assembly) (first : Branch) (others : List Branch) :
      Begins .list a ((a.withList first others).pushMark .separator)
  | filter (a : Assembly) : Begins .filter a (a.openScope .filter)
  | computed (a : Assembly) : Begins .computed a (a.openScope .computed)
  | call (a : Assembly) (f : Function) {ps : List Program} (h : ∀ p ∈ ps, p.height? 0 = some 1) :
      Begins .call a (a.withArguments f ps)

/-- Where the innermost of some open constructs begins; around each there is something that a selector may follow. -/
inductive Opened : List Frame → Assembly → Prop
  | query : Opened [] .empty
  | construct {fs : List Frame} {frame : Frame} {a b : Assembly} {items : List Item} {pending : List Pending}
      (h : Opened fs a) (hs : Started fs.head? items pending) (hb : frame.Begins (a.under items pending) b) :
      Opened (frame :: fs) b

/-- The part of the innermost construct that is being read has some contents. -/
def Inside (contents : List Item → List Pending → Prop) (fs : List Frame) (a : Assembly) : Prop :=
  ∃ b items pending, Opened fs b ∧ contents items pending ∧ a = b.under items pending

theorem Fresh.underway {frame : Frame} {items : List Item} {pending : List Pending} (hf : frame ≠ .list)
    (h : Fresh (some frame) items pending) : Underway 0 items pending := by
  cases h with
  | list => exact absurd rfl hf
  | expression _ h => exact h

theorem Complete.underway {frame : Frame} {items : List Item} {pending : List Pending} (hf : frame ≠ .list)
    (h : Complete (some frame) items pending) : Underway 1 items pending := by
  cases h with
  | list => exact absurd rfl hf
  | expression _ h => exact h

theorem Fresh.started {items : List Item} {pending : List Pending} (h : Fresh (some .list) items pending) :
    Started (some .list) items pending := by
  cases h with
  | list => exact .list
  | expression hf _ => exact absurd rfl hf

/-- A selector makes a path, or goes on with it. -/
theorem Started.pushPath {frame? : Option Frame} {items : List Item} {pending others : List Pending}
    (h : Started frame? items pending) (steps : List Selector) :
    Complete frame? (Assembly.pushPath ⟨items, others⟩ steps).items pending := by
  cases h with
  | query anchor => cases anchor <;> exact .query _ steps
  | branch anchor => cases anchor <;> exact .list ⟨some _, steps⟩
  | list => exact .list ⟨none, steps⟩
  | complete h =>
    cases h with
    | query anchor path => exact .query anchor (path ++ steps)
    | list b =>
      obtain ⟨anchor, path⟩ := b
      cases anchor with
      | none => exact .list ⟨none, path ++ steps⟩
      | some anchor => exact .list ⟨some anchor, path ++ steps⟩
    | expression hf h => exact .expression hf (h.pushPath steps others)

/-- A starting point stands where an operand or a path is to start. -/
theorem Fresh.anchor {frame? : Option Frame} {items : List Item} {pending : List Pending}
    (h : Fresh frame? items pending) (anchor : Anchor) :
    Started frame? (.instr anchor.instr :: items) pending := by
  cases h with
  | query => exact .query anchor
  | list => exact .branch anchor
  | expression hf h => exact .complete (.expression hf (h.operand (by cases anchor <;> rfl)))

variable {fs : List Frame} {frame : Frame} {a b : Assembly}

namespace Opened

/-- A construct begins with a mark. -/
theorem items (h : Opened fs b) : ∀ i ∈ b.items.head?, ∃ m, i = .mark m := by
  intro i hi
  cases h with
  | query => cases hi
  | construct h hs hb =>
    cases hb with
    | @call a f ps _ =>
      rcases List.eq_nil_or_concat ps with rfl | ⟨ps, p, rfl⟩
      · exact ⟨.call f, by simpa [argumentItems, Assembly.withArguments] using hi.symm⟩
      · exact ⟨.argument, by simpa [argumentItems, Assembly.withArguments] using hi.symm⟩
    | _ => exact ⟨_, (Option.some.inj hi).symm⟩

/-- A construct that holds expressions has a scope. -/
theorem pending (h : Opened (frame :: fs) b) (hf : frame ≠ .list) : ∃ below, b.pending = .scope :: below := by
  cases h with
  | construct h hs hb =>
    cases hb with
    | first | next => exact absurd rfl hf
    | _ => exact ⟨_, rfl⟩

/-- A path that is pushed goes on only with a path of the part that is being read. -/
theorem pushPath_under (h : Opened fs b) (items : List Item) (pending : List Pending) (steps : List Selector) :
    (b.under items pending).pushPath steps = b.under (Assembly.pushPath ⟨items, pending⟩ steps).items pending := by
  cases items with
  | cons i items =>
    cases i with
    | mark m => rfl
    | instr i => cases i <;> rfl
  | nil =>
    have hm := h.items
    obtain ⟨outer, below⟩ := b
    cases outer with
    | nil => rfl
    | cons i outer =>
      obtain ⟨m, rfl⟩ := hm i rfl
      rfl

/-- What waits below an expression is its scope. -/
theorem firm (h : Opened (frame :: fs) b) (hf : frame ≠ .list) : Firm b.pending := by
  obtain ⟨below, hb⟩ := h.pending hf
  rw [hb]
  exact Syntax.firm_scope below

/-- An operator behind an operand settles a part of the expression. -/
theorem pushOperator_under (h : Opened (frame :: fs) b) (hf : frame ≠ .list) {items : List Item}
    {pending : List Pending} (hu : Underway 1 items pending) (op : Operator) :
    ∃ items' rest, (b.under items pending).pushOperator op = b.under items' (.operator op :: rest) ∧
      Underway 1 items' rest := by
  obtain ⟨items', rest, he, hr⟩ := hu.settle_append (h.firm hf) op b.items
  refine ⟨items', rest, ?_, hr⟩
  unfold Assembly.pushOperator Assembly.under
  rw [he]
  rfl

end Opened

namespace Inside

theorem mono {P Q : List Item → List Pending → Prop} (h : Inside P fs a)
    (hPQ : ∀ items pending, P items pending → Q items pending) : Inside Q fs a := by
  obtain ⟨b, items, pending, hb, hp, he⟩ := h
  exact ⟨b, items, pending, hb, hPQ items pending hp, he⟩

theorem empty : Inside (Fresh none) [] .empty := ⟨.empty, [], [], .query, .query, rfl⟩

theorem pushPath (h : Inside (Started fs.head?) fs a) (steps : List Selector) :
    Inside (Complete fs.head?) fs (a.pushPath steps) := by
  obtain ⟨b, items, pending, hb, hs, rfl⟩ := h
  rw [hb.pushPath_under]
  exact ⟨b, _, pending, hb, hs.pushPath steps, rfl⟩

theorem pushSelector (h : Inside (Started fs.head?) fs a) (x : Selector) :
    Inside (Complete fs.head?) fs (a.pushSelector x) :=
  h.pushPath [x]

theorem pushAnchor (h : Inside (Fresh fs.head?) fs a) (anchor : Anchor) :
    Inside (Started fs.head?) fs (a.push anchor.instr) := by
  obtain ⟨b, items, pending, hb, hs, rfl⟩ := h
  exact ⟨b, _, pending, hb, hs.anchor anchor, rfl⟩

theorem started (hf : fs.head? = some .list) (h : Inside (Fresh fs.head?) fs a) :
    Inside (Started fs.head?) fs a := by
  rw [hf] at h ⊢
  exact h.mono fun _ _ hc => hc.started

section expressions

variable (hf : ∃ frame outer, fs = frame :: outer ∧ frame ≠ .list)
include hf

theorem literal (h : Inside (Fresh fs.head?) fs a) (v : Value) :
    Inside (Complete fs.head?) fs (a.push (.literal v)) := by
  obtain ⟨frame, outer, rfl, hne⟩ := hf
  obtain ⟨b, items, pending, hb, hc, rfl⟩ := h
  exact ⟨b, _, pending, hb, .expression hne ((hc.underway hne).operand rfl), rfl⟩

theorem openGroup (h : Inside (Fresh fs.head?) fs a) : Inside (Fresh fs.head?) fs a.openGroup := by
  obtain ⟨frame, outer, rfl, hne⟩ := hf
  obtain ⟨b, items, pending, hb, hc, rfl⟩ := h
  exact ⟨b, items, .group :: pending, hb, .expression hne (hc.underway hne).group, rfl⟩

/-- A prefix settles nothing. -/
theorem prefixed (h : Inside (Fresh fs.head?) fs a) {op : UnaryOp} (hop : (Operator.unary op).isPrefixed = true) :
    Inside (Fresh fs.head?) fs (a.pushOperator (.unary op)) := by
  obtain ⟨frame, outer, rfl, hne⟩ := hf
  obtain ⟨b, items, pending, hb, hc, rfl⟩ := h
  refine ⟨b, items, .operator (.unary op) :: pending, hb, .expression hne ((hc.underway hne).unary op), ?_⟩
  have hrests : Syntax.Rests (.unary op) (pending ++ b.pending) := by
    cases op with
    | not => exact Syntax.rests_prefixOp .not _
    | negate => exact Syntax.rests_prefixOp .negate _
    | likes p => cases hop
  unfold Assembly.pushOperator Assembly.under
  rw [hrests]
  rfl

theorem binary (h : Inside (Complete fs.head?) fs a) (op : BinaryOp) :
    Inside (Fresh fs.head?) fs (a.pushOperator (.binary op)) := by
  obtain ⟨frame, outer, rfl, hne⟩ := hf
  obtain ⟨b, items, pending, hb, hc, rfl⟩ := h
  obtain ⟨items', rest, he, hr⟩ := hb.pushOperator_under hne (hc.underway hne) (.binary op)
  exact ⟨b, items', _, hb, .expression hne (hr.binary op), he⟩

theorem unary (h : Inside (Complete fs.head?) fs a) (op : UnaryOp) :
    Inside (Complete fs.head?) fs (a.pushOperator (.unary op)) := by
  obtain ⟨frame, outer, rfl, hne⟩ := hf
  obtain ⟨b, items, pending, hb, hc, rfl⟩ := h
  obtain ⟨items', rest, he, hr⟩ := hb.pushOperator_under hne (hc.underway hne) (.unary op)
  exact ⟨b, items', _, hb, .expression hne (hr.unary op), he⟩

end expressions

/-- A construct is opened, and nothing has been read in it. -/
theorem construct (h : Inside (Started fs.head?) fs a) (hb : frame.Begins a b) :
    Inside Bare (frame :: fs) b := by
  obtain ⟨c, items, pending, hc, hs, rfl⟩ := h
  exact ⟨b, [], [], .construct hc hs hb, ⟨rfl, rfl⟩, rfl⟩

/-- Where nothing has been read in a construct, an operand or a path is to start. -/
theorem fresh (h : Inside Bare (frame :: fs) a) : Inside (Fresh (some frame)) (frame :: fs) a := by
  refine h.mono ?_
  rintro items pending ⟨rfl, rfl⟩
  cases frame with
  | list => exact .list
  | _ => exact .expression (by simp) .nil

theorem openUnion (h : Inside (Started fs.head?) fs a) :
    Inside (Fresh (some .list)) (.list :: fs) (a.pushMark .union) :=
  (h.construct (.first a)).fresh

theorem openCall (h : Inside (Started fs.head?) fs a) (f : Function) :
    Inside Bare (.call :: fs) (a.openScope (.call f)) :=
  h.construct (@Frame.Begins.call a f [] (by simp))

/-- A bracket list consists of its branches, the last of which is being read. -/
theorem branches (h : Inside (Complete (some .list)) (.list :: fs) a) :
    ∃ outer first others, Inside (Started fs.head?) fs outer ∧ a = outer.withList first others := by
  obtain ⟨b, items, pending, hb, hc, rfl⟩ := h
  cases hc with
  | expression hf _ => exact absurd rfl hf
  | list branch =>
    cases hb with
    | @construct _ _ outer _ items pending ho hs hb =>
      have ho : Inside (Started fs.head?) fs (outer.under items pending) := ⟨outer, items, pending, ho, hs, rfl⟩
      cases hb with
      | first =>
        refine ⟨_, branch, [], ho, ?_⟩
        simp [Assembly.withList, Assembly.pushMark, Assembly.under, listItems]
      | next _ first others =>
        refine ⟨_, first, others ++ [branch], ho, ?_⟩
        simp [Assembly.withList, Assembly.pushMark, Assembly.under, listItems]

theorem separator (h : Inside (Complete (some .list)) (.list :: fs) a) :
    Inside (Fresh (some .list)) (.list :: fs) (a.pushMark .separator) := by
  obtain ⟨outer, first, others, ho, rfl⟩ := h.branches
  exact (ho.construct (.next outer first others)).fresh

end Inside

end PathQuery
