import PathQuery.Proofs.Query.Closers

namespace PathQuery

open Role

/-- How far the part of the assembly that is being read has come. -/
inductive Phase
  /-- There is nothing in it. -/
  | bare
  | fresh
  | started
  | complete
  /-- An expression is complete, and cannot go on. -/
  | whole
  /-- There is a whole argument of a call, or none. -/
  | argument
  deriving DecidableEq

namespace Phase

/-- What is read in a phase, given the innermost construct. -/
def Holds (frame? : Option Frame) (items : List Item) (pending : List Pending) : Phase → Prop
  | bare => Bare items pending
  | fresh => Fresh frame? items pending
  | started => Started frame? items pending
  | complete | whole => Complete frame? items pending
  | argument => Bare items pending ∨ Complete frame? items pending

/-- The part of an assembly that is being read is in a phase. -/
def In (p : Phase) (fs : List Frame) (a : Assembly) : Prop :=
  Inside (fun items pending => p.Holds fs.head? items pending) fs a

/-- A phase in which one mode leaves an expression is the one that another mode needs. -/
def gives (p q : Phase) : Bool := p = q || (p = whole && q = argument)

theorem In.of_gives {p q : Phase} {fs : List Frame} {a : Assembly} (h : p.In fs a) (hg : p.gives q = true) :
    q.In fs a := by
  have hcases : p = q ∨ p = whole ∧ q = argument := by simpa [gives] using hg
  obtain rfl | ⟨rfl, rfl⟩ := hcases
  · exact h
  · exact h.mono fun _ _ hc => .inr hc

end Phase

namespace Role

/-- The phase that a role begins in. -/
def needs : Role → Phase
  | start | queryCall | element | bound | operand => .fresh
  | selector => .started
  | path | elementEnd | operator | comparator | half => .complete
  | filterEnd | computedEnd => .whole
  | firstArgument => .bare
  | arguments => .argument

/-- The phase that a role ends in. -/
def leaves : Role → Phase
  | half => .fresh
  | operator => .whole
  | firstArgument => .argument
  | _ => .complete

/-- Each role leaves what the role below it needs. -/
def Chained (roles : List Role) : Prop := roles.IsChain fun r s => r.leaves.gives s.needs = true

/-- The phase behind a turn of a role. -/
def after (r : Role) : List Role → Phase
  | [] => r.leaves
  | s :: _ => s.needs

end Role

namespace Turn

variable {r : Role} {act : Act} {next below : List Role} {a b : Assembly}

theorem chained (ht : Turn r act next) (h : Chained (r :: below)) : Chained (next ++ below) := by
  have hn : Chained next := by
    cases ht <;> simp [Chained, leaves, needs, Phase.gives]
  -- the last of the roles leaves what the role before the turn was to leave
  have hl : ∀ l ∈ next.getLast?, ∀ q, r.leaves.gives q = true → l.leaves.gives q = true := by
    cases ht <;> rintro l ⟨⟩ q hq <;> first | exact hq | cases q <;> first | rfl | cases hq
  refine List.isChain_append.2 ⟨hn, List.IsChain.tail h, ?_⟩
  intro l hm s hs
  cases below with
  | nil => cases hs
  | cons t below =>
    obtain rfl : t = s := by simpa using hs
    exact hl l hm _ (List.isChain_cons_cons.1 h).1

/-- A turn of any role but that behind an argument leads from phase to phase. -/
theorem phase (ht : Turn r act next) (hr : r ≠ .arguments) (hf : r.Fits (frames (r :: below))) {k : Nat}
    (h : r.needs.In (frames (r :: below)) a) (hp : act.perform k a = .ok b) :
    (r.after next).In (frames (next ++ below)) b := by
  cases ht with
  | stay | queryName | pathEnd | elementBound | operatorEnd | comparator | half =>
    cases hp
    exact h
  | pathStep | operatorStep =>
    cases hp
    exact h.mono fun _ _ hc => .complete hc
  | queryRoot | elementRoot | operandRoot =>
    cases hp
    exact (Inside.pushAnchor h .root).pushSelector _
  | elementCurrent | operandCurrent =>
    cases hp
    exact (Inside.pushAnchor h .current).pushSelector _
  | elementName =>
    cases hp
    exact Inside.started hf h
  | selector =>
    cases hp
    exact Inside.pushSelector h _
  | descent =>
    cases hp
    exact (Inside.pushSelector h _).mono fun _ _ hc => .complete hc
  | wildcard | bound =>
    cases hp
    exact (Inside.started hf h).pushSelector _
  | pathList | operatorList =>
    cases hp
    exact Inside.openUnion (h.mono fun _ _ hc => .complete hc)
  | descentList =>
    cases hp
    exact Inside.openUnion h
  | queryCall f | operandCall f =>
    cases hp
    exact (Inside.pushAnchor h .current).openCall f
  | elementFilter =>
    cases hp
    exact ((Inside.started hf h).construct (.filter a)).fresh
  | elementComputed =>
    cases hp
    exact ((Inside.started hf h).construct (.computed a)).fresh
  | nextElement =>
    cases hp
    exact Inside.separator h
  | listEnd =>
    obtain ⟨result, hc, hi⟩ := Inside.closeUnion h
    rw [hc.perform k] at hp
    exact hi b hp
  | filterEnd =>
    obtain ⟨result, hc, hi⟩ := Inside.closeFilter h
    rw [hc.perform k] at hp
    exact hi b hp
  | computedEnd =>
    obtain ⟨result, hc, hi⟩ := Inside.closeComputed h
    rw [hc.perform k] at hp
    exact hi b hp
  | literal v =>
    cases hp
    exact Inside.literal hf h v
  | group =>
    cases hp
    exact Inside.openGroup hf h
  | unary op hop =>
    cases hp
    exact Inside.prefixed hf h hop
  | groupEnd => exact Inside.closeGroup hf h hp
  | binary op | comparison op | halfEnd op =>
    cases hp
    exact Inside.binary hf h op
  | likes p =>
    cases hp
    exact Inside.unary hf h _
  | argument =>
    cases hp
    obtain ⟨frame, outer, he, -⟩ := hf
    have hi : Phase.bare.In (frame :: outer) a := he ▸ h
    exact he ▸ Inside.fresh hi
  | noArgument =>
    cases hp
    exact h.mono fun _ _ hc => .inl hc
  | nextArgument | callEnd => exact absurd rfl hr

end Turn

end PathQuery
