import Mathlib.Data.List.TakeWhile
import PathQuery.Proofs.Query.InStep
import PathQuery.Proofs.Query.Standalone

namespace PathQuery

open Role (frames)
open Item (IsMark isMark_of)
open Syntax (Firm)

/-- The mark of a construct that is opened. -/
def Item.opens (i : Item) : Bool := i.isUnion || i.isFilter || i.isComputed || i.isCall

def Pending.isScope : Pending → Bool
  | .scope => true
  | _ => false

/-- Whether a construct has a scope. -/
def Frame.scoped : Frame → Bool
  | .list => false
  | _ => true

theorem Frame.scoped_of_ne_list {frame : Frame} (h : frame ≠ .list) : frame.scoped = true := by
  cases frame with
  | list => exact absurd rfl h
  | _ => rfl

namespace Frame.Opens

variable {frame : Frame} {m : Mark}

theorem opens (h : frame.Opens m) : (Item.mark m).opens = true := by cases h <;> rfl

end Frame.Opens

theorem Pieces.opens {items : List Item} (h : Pieces items) : ∀ i ∈ items, i.opens = false := by
  intro i hi
  cases h.piece i hi <;> rfl

theorem Frame.Holds.opens {frame : Frame} {items : List Item} (h : frame.Holds items) :
    ∀ i ∈ items, i.opens = false := by
  cases frame with
  | list => exact Pieces.opens h
  | _ =>
    intro i hi
    cases h i hi <;> rfl

/-- Each open construct has one mark among the items. -/
theorem Layout.countP_opens : ∀ {fs : List Frame} {items : List Item}, Layout fs items →
    items.countP Item.opens = fs.length
  | [], items, h => by
    rw [List.countP_eq_zero.2 fun i hi => by simp [Pieces.opens h i hi]]
    rfl
  | frame :: fs, items, h => by
    obtain ⟨inner, m, outer, rfl, hm, hin, hout⟩ := h
    have hinner : inner.countP Item.opens = 0 := List.countP_eq_zero.2 fun i hi => by simp [hin.opens i hi]
    rw [List.countP_append, List.countP_cons_of_pos hm.opens, hinner, hout.countP_opens, List.length_cons]
    omega

/-- Each open construct that holds expressions has one scope. -/
theorem Waits.countP_isScope {fs : List Frame} {pending : List Pending} (h : Waits fs pending) :
    pending.countP Pending.isScope = fs.countP Frame.scoped := by
  induction h with
  | base => rfl
  | list _ ih => exact ih
  | scope hf _ ih =>
    have hscope : Pending.scope.isScope = true := rfl
    rw [List.countP_cons_of_pos (Frame.scoped_of_ne_list hf), List.countP_cons_of_pos hscope, ih]
  | operator _ _ _ ih | group _ _ ih => exact ih

section innermost

variable {frame : Frame} {inner outer : List Frame}

/-- If the constructs around a part are open below it, the mark of its innermost construct is in the part. -/
theorem Layout.mark_mem {top bottom : List Item} (h : Layout (frame :: inner ++ outer) (top ++ bottom))
    (hb : Layout outer bottom) : ∃ m, frame.Opens m ∧ Item.mark m ∈ top := by
  obtain ⟨above, m, rest, he, hm, -, hrest⟩ := h
  refine ⟨m, hm, ?_⟩
  obtain ⟨others, -, hbottom⟩ | ⟨others, htop, hothers⟩ := List.append_eq_append_iff.1 he
  · -- otherwise there would be more marks below the part than constructs around it
    have hcount := hb.countP_opens
    rw [hbottom, List.countP_append, List.countP_cons_of_pos hm.opens, Layout.countP_opens hrest] at hcount
    simp at hcount
    omega
  · cases others with
    | nil =>
      have hcount := hb.countP_opens
      rw [List.nil_append] at hothers
      rw [← hothers, List.countP_cons_of_pos hm.opens, Layout.countP_opens hrest] at hcount
      simp at hcount
      omega
    | cons i others =>
      obtain ⟨rfl, -⟩ := List.cons.inj hothers
      rw [htop]
      simp

theorem Waits.scope_mem {top bottom : List Pending} (hf : frame.scoped = true)
    (h : Waits (frame :: inner ++ outer) (top ++ bottom)) (hb : Waits outer bottom) : Pending.scope ∈ top := by
  have hcount := h.countP_isScope
  rw [List.countP_append, List.cons_append, List.countP_cons_of_pos hf, List.countP_append,
    hb.countP_isScope] at hcount
  obtain ⟨w, hw, hscope⟩ := List.countP_pos_iff.1 (show 0 < top.countP Pending.isScope by omega)
  cases w with
  | scope => exact hw
  | _ => cases hscope

end innermost

namespace Assembly

variable {f : Nat → Nat} {a b base : Assembly}

/-- A mark that is there is found. -/
theorem takeTo_of_mem {isMark : Item → Bool} (h : ∃ i ∈ a.items, isMark i = true) :
    ∃ m items b, a.takeTo isMark = .ok (m, items, b) := by
  obtain ⟨i, hi, hm⟩ := h
  rw [takeTo]
  split
  · exact ⟨_, _, _, rfl⟩
  · next hd =>
    rw [List.dropWhile_eq_nil_iff] at hd
    have hnot := hd i hi
    rw [hm] at hnot
    cases hnot

/-- Behind the operators that are settled the latest group or scope is on top. -/
theorem exists_settled_of_scope (h : .scope ∈ a.pending) : ∃ items w rest, a.settled = ⟨items, w :: rest⟩ := by
  obtain ⟨ops, rest, hp, hs⟩ := settled_eq a
  rw [hp, List.mem_append] at h
  have hrest : .scope ∈ rest := h.resolve_left (by simp)
  cases rest with
  | nil => cases hrest
  | cons w rest => exact ⟨_, w, rest, hs⟩

theorem closeScope_of_atop (hb : Firm base.pending) (ha : .scope ∈ a.pending) (h : (base.atop f a).closeScope = .ok b) :
    ∃ c, a.closeScope = .ok c ∧ b = base.atop f c := by
  obtain ⟨items, w, rest, hs⟩ := exists_settled_of_scope ha
  rw [closeScope, settled_atop hb, hs] at h
  cases w with
  | scope =>
    cases h
    exact ⟨⟨items, rest⟩, by rw [closeScope, hs], rfl⟩
  | _ => cases h

theorem closeArgument_of_atop (hb : Firm base.pending) (ha : .scope ∈ a.pending)
    (h : (base.atop f a).closeArgument = .ok b) : ∃ c, a.closeArgument = .ok c ∧ b = base.atop f c := by
  obtain ⟨items, w, rest, hs⟩ := exists_settled_of_scope ha
  rw [closeArgument, settleScope, settled_atop hb, hs] at h
  cases w with
  | scope =>
    cases h
    exact ⟨⟨.mark .argument :: items, .scope :: rest⟩, by rw [closeArgument, settleScope, hs]; rfl, rfl⟩
  | _ => cases h

/-- A program made of the items of a part is one with other numbers. -/
theorem ofItems_of_renumber {items : List Item} {p : Program}
    (h : Program.ofItems (items.map (Item.renumber f)) = .ok p) : ∃ q, Program.ofItems items = .ok q := by
  rw [Program.ofItems_renumber] at h
  obtain ⟨q, hq, -⟩ := map_eq_ok h
  exact ⟨q, hq⟩

/-- A filter or computed key is closed apart from what is below it. -/
theorem closeExpression_of_atop {isMark : Item → Bool} {selector : Program → Selector} (hm : IsMark isMark)
    (hb : Firm base.pending) (hs : .scope ∈ a.pending) (hi : ∃ i ∈ a.items, isMark i = true)
    (h : (base.atop f a).closeExpression isMark selector = .ok b) :
    ∃ c, a.closeExpression isMark selector = .ok c := by
  obtain ⟨c, m, items, d, p, hc, hd, hp, -⟩ := closeExpression_cases h
  obtain ⟨c', hc', rfl⟩ := closeScope_of_atop hb hs hc
  obtain ⟨ops, -, hitems⟩ := closeScope_cases hc'
  obtain ⟨i, hmem, hmark⟩ := hi
  have hfound : ∃ i ∈ c'.items, isMark i = true := ⟨i, by rw [hitems]; exact List.mem_append_right _ hmem, hmark⟩
  obtain ⟨m', items', d', hd'⟩ := takeTo_of_mem hfound
  rw [takeTo_atop hm hd'] at hd
  cases hd
  obtain ⟨q, hq⟩ := ofItems_of_renumber hp
  exact ⟨_, closeExpression_of_taken hc' hd' hq⟩

theorem closeUnion_of_atop (hi : ∃ i ∈ a.items, Item.isUnion i = true) (h : (base.atop f a).closeUnion = .ok b) :
    ∃ c, a.closeUnion = .ok c := by
  obtain ⟨m, items, c, hc⟩ := takeTo_of_mem hi
  by_cases hpath : ∃ steps, items = [.instr (.path steps)]
  · obtain ⟨steps, rfl⟩ := hpath
    exact ⟨c.pushPath steps, by rw [closeUnion, hc]; rfl⟩
  obtain ⟨m', items', c', hc', hcases⟩ := closeUnion_cases h
  rw [takeTo_atop (isMark_of fun _ => rfl) hc] at hc'
  cases hc'
  obtain ⟨steps, hsteps, -⟩ | ⟨branches, hbranches, -⟩ := hcases
  · -- other numbers make no path of what is none
    exfalso
    obtain ⟨i, rfl, hrenumbered⟩ := List.map_eq_singleton_iff.1 hsteps
    cases i with
    | mark m => cases hrenumbered
    | instr i =>
      cases i with
      | path path => exact hpath ⟨path, rfl⟩
      | _ => simp [Item.renumber, Instr.renumber] at hrenumbered
  · rw [splitItems_renumber (isMark_of fun _ => rfl), mapM_map_eq branchOf_renumber] at hbranches
    obtain ⟨ps, hps, -⟩ := map_eq_ok hbranches
    refine ⟨c.pushSelector (.union ps), ?_⟩
    simp only [closeUnion, hc, bind, Except.bind]
    split
    · next steps => exact absurd ⟨steps, rfl⟩ hpath
    · rw [hps]
      rfl

theorem closeLastArgument_of_atop (hb : Firm base.pending) (hs : .scope ∈ a.pending) (ha : a.items ≠ [])
    (h : (base.atop f a).closeLastArgument = .ok b) : ∃ c, a.closeLastArgument = .ok c ∧ b = base.atop f c := by
  rw [closeLastArgument, head?_any_atop (isMark_of fun _ => rfl) ha] at h
  rw [closeLastArgument]
  split at h
  · next hc =>
    cases h
    exact ⟨a, if_pos hc, rfl⟩
  · next hc =>
    rw [if_neg hc]
    exact closeArgument_of_atop hb hs h

theorem closeCall_of_atop (hb : Firm base.pending) (hs : .scope ∈ a.pending)
    (hi : ∃ i ∈ a.items, Item.isCall i = true) (h : (base.atop f a).closeCall = .ok b) :
    ∃ c, a.closeCall = .ok c := by
  obtain ⟨i, hmem, hcall⟩ := hi
  have hne : a.items ≠ [] := List.ne_nil_of_mem hmem
  obtain ⟨c, hc, h⟩ := bind_eq_ok h
  obtain ⟨d, hd, h⟩ := bind_eq_ok h
  obtain ⟨⟨m, items, e⟩, he, h⟩ := bind_eq_ok h
  obtain ⟨c', hc', rfl⟩ := closeLastArgument_of_atop hb hs hne hc
  have hlast : .scope ∈ c'.pending ∧ i ∈ c'.items := by
    obtain rfl | hargument := closeLastArgument_cases hc'
    · exact ⟨hs, hmem⟩
    · obtain ⟨k, hk, rfl⟩ := closeArgument_cases hargument
      obtain ⟨ops, rest, -, rfl⟩ := settleScope_cases hk
      exact ⟨List.mem_cons_self, List.mem_cons_of_mem _ (List.mem_append_right _ hmem)⟩
  obtain ⟨d', hd', rfl⟩ := closeScope_of_atop hb hlast.1 hd
  obtain ⟨ops, -, hitems⟩ := closeScope_cases hd'
  obtain ⟨m', items', e', he'⟩ :=
    takeTo_of_mem (a := d') ⟨i, by rw [hitems]; exact List.mem_append_right _ hlast.2, hcall⟩
  rw [takeTo_atop (isMark_of fun _ => rfl) he'] at he
  cases he
  cases m' with
  | instr j => cases h
  | mark m' =>
    cases m' with
    | call g =>
      obtain ⟨arguments, harguments, h⟩ := bind_eq_ok h
      rw [argumentsOf_renumber] at harguments
      obtain ⟨ps, hps, rfl⟩ := map_eq_ok harguments
      split at h
      · next haccepts =>
        have hlength : (renumberBranches f ps).length = ps.length := by simp [renumberBranches_eq]
        rw [hlength] at haccepts
        refine ⟨e'.pushSelector (.call g ps), ?_⟩
        simp only [closeCall, hc', hd', he', hps, bind, Except.bind, if_pos haccepts]
      · cases h
    | _ => cases h

end Assembly

/-- What an act closes has been opened in a part. -/
def Act.Within (a : Assembly) : Act → Prop
  | closeGroup => a.hasOpenGroup = true
  | closeUnion => ∃ i ∈ a.items, i.isUnion = true
  | closeFilter => .scope ∈ a.pending ∧ ∃ i ∈ a.items, i.isFilter = true
  | closeComputed => .scope ∈ a.pending ∧ ∃ i ∈ a.items, i.isComputed = true
  | closeArgument => .scope ∈ a.pending
  | closeCall => .scope ∈ a.pending ∧ ∃ i ∈ a.items, i.isCall = true
  | _ => True

/-- An act that can be taken on top of other parts can be taken apart from them. -/
theorem Act.perform_of_atop {act : Act} {f : Nat → Nat} {a b base : Assembly} {i : Nat} (hb : Firm base.pending)
    (hw : act.Within a) (h : act.perform i (base.atop f a) = .ok b) (k : Nat) : ∃ c, act.perform k a = .ok c := by
  cases act with
  | closeGroup => exact Assembly.closeGroup_of_open hw
  | closeUnion => exact Assembly.closeUnion_of_atop hw h
  | closeFilter | closeComputed => exact Assembly.closeExpression_of_atop (isMark_of fun _ => rfl) hb hw.1 hw.2 h
  | closeArgument =>
    obtain ⟨c, hc, -⟩ := Assembly.closeArgument_of_atop hb hw h
    exact ⟨c, hc⟩
  | closeCall => exact Assembly.closeCall_of_atop hb hw.1 hw.2 h
  | _ => exact ⟨_, rfl⟩

theorem Role.frames_append (roles others : List Role) : frames (roles ++ others) = frames roles ++ frames others := by
  induction roles with
  | nil => rfl
  | cons r roles ih => rw [List.cons_append, frames, frames, ih, List.append_assoc]

/-- What a role above others closes has been opened in the part that belongs to it, and not below. -/
theorem Turn.within {r : Role} {act : Act} {next inner : List Role} {outer : List Frame} {f : Nat → Nat}
    {a base : Assembly} (ht : Turn r act next) (hl : Laid (frames (r :: inner) ++ outer) (base.atop f a))
    (hbase : Laid outer base) (hg : act = .closeGroup → a.hasOpenGroup = true) : act.Within a := by
  have hmark : ∀ {frame : Frame} {isMark : Item → Bool}, r.frame? = some frame → IsMark isMark →
      (∀ m, frame.Opens m → isMark (.mark m) = true) → ∃ i ∈ a.items, isMark i = true := by
    intro frame isMark hr hm ho
    have hlayout := hl.layout
    rw [frames, hr] at hlayout
    obtain ⟨m, hopens, hmem⟩ := Layout.mark_mem hlayout hbase.layout
    obtain ⟨i, hi, he⟩ := List.mem_map.1 hmem
    refine ⟨i, hi, ?_⟩
    rw [← hm.renumber f, he]
    exact ho m hopens
  have hscope : ∀ {frame : Frame}, r.frame? = some frame → frame.scoped = true → .scope ∈ a.pending := by
    intro frame hr hscoped
    have hwaits := hl.waits
    rw [frames, hr] at hwaits
    exact Waits.scope_mem hscoped hwaits hbase.waits
  cases ht with
  | groupEnd => exact hg rfl
  | listEnd => exact hmark rfl (isMark_of fun _ => rfl) (by rintro m ⟨⟩; rfl)
  | filterEnd => exact ⟨hscope rfl rfl, hmark rfl (isMark_of fun _ => rfl) (by rintro m ⟨⟩; rfl)⟩
  | computedEnd => exact ⟨hscope rfl rfl, hmark rfl (isMark_of fun _ => rfl) (by rintro m ⟨⟩; rfl)⟩
  | nextArgument => exact hscope rfl rfl
  | callEnd => exact ⟨hscope rfl rfl, hmark rfl (isMark_of fun _ => rfl) (by rintro m ⟨⟩; rfl)⟩
  | _ => trivial

namespace Machine

variable {m n part : Machine} {env : Env} {f : Nat → Nat} {base : Assembly} {outer below : List Mode}

/-- What a part can be read on top of: modes that begin behind an argument, and an assembly that fits to them, in which
no operator or parenthesis waits on top. -/
structure Bears (outer : List Mode) (base : Assembly) : Prop where
  modes : outer.head? = some .arguments
  laid : Laid (frames (Mode.roles outer)) base
  firm : Firm base.pending
  closed : base.hasOpenGroup = false

/-- An expression is read, with nothing below. -/
def Expression (m : Machine) : Prop := m.roles.getLast? = some .operator

/-- Behind an operand the modes below matter only where an expression ends. -/
theorem readOperator_of_above {text : List Char}
    (h : (part.above outer).readOperator (below ++ outer) text = .ok n) :
    below = [] ∧ n = (part.goto []).above outer ∨
      ∃ next, part.readOperator below text = .ok next ∧ n = next.above outer := by
  cases text with
  | nil => cases h
  | cons c rest =>
    by_cases hc : c = ')'
    · subst hc
      have hgroup : (part.above outer).assembly.hasOpenGroup = part.assembly.hasOpenGroup := rfl
      rw [readOperator_parenthesis, hgroup] at h
      rw [readOperator_parenthesis]
      split at h
      · next hg =>
        rw [if_pos hg]
        obtain ⟨a, ha, rfl⟩ := attempt_eq_ok h
        exact .inr ⟨_, attempt_of_ok ha, rfl⟩
      · next hg =>
        rw [if_neg hg]
        split at h
        · next hb =>
          cases h
          cases below with
          | nil => exact .inl ⟨rfl, rfl⟩
          | cons mode below => exact .inr ⟨_, if_pos hb, rfl⟩
        · cases h
    · rw [readOperator_above_eq outer hc] at h
      obtain ⟨next, hnext, rfl⟩ := map_eq_ok h
      exact .inr ⟨next, hnext, rfl⟩

/-- A step that can be taken above other modes is taken without them, or it ends the expression. -/
theorem step_of_above (hp : part.modes ≠ []) (h : (part.above outer).step env = .ok n) :
    part.modes = [.operator] ∧ n = (part.goto []).above outer ∨
      ∃ next, part.step env = .ok next ∧ n = next.above outer := by
  obtain ⟨mode, below, hm⟩ := List.exists_cons_of_ne_nil hp
  have hm' : (part.above outer).modes = mode :: (below ++ outer) := congrArg (· ++ outer) hm
  rw [step_cons hm'] at h
  rw [step_cons hm]
  by_cases ho : mode = .operator
  · subst ho
    obtain ⟨rfl, rfl⟩ | hnext := readOperator_of_above h
    · exact .inl ⟨hm, rfl⟩
    · exact .inr hnext
  · rw [stepIn_above outer ho] at h
    obtain ⟨next, hnext, rfl⟩ := map_eq_ok h
    exact .inr ⟨next, hnext, rfl⟩

/-- Behind the operand of an expression only its end leaves no mode. -/
theorem readOperator_ends {text : List Char} (hm : part.modes = [.operator]) (h : part.readOperator [] text = .ok n)
    (hn : n.modes = []) : n = part.goto [] := by
  cases text with
  | nil => cases h
  | cons c rest =>
    rw [readOperator] at h
    split_ifs at h
    · cases h
      exact absurd (hm.symm.trans hn) (List.cons_ne_nil _ _)
    · cases h
      cases hn
    · cases h
      cases hn
    · exact absurd ((attempt_modes h).symm.trans hn) (by simp [past, hm])
    · cases h
      rfl
    · cases h
    · cases h
      rfl
    · split at h
      · cases h
        cases hn
      · cases h
        exact absurd hn (by simp [goto])
      · cases h

/-- An expression goes on with every step but the one that ends it. -/
theorem Expression.step (hp : part.Expression) (h : part.step env = .ok n) :
    n.Expression ∨ part.modes = [.operator] ∧ n = part.goto [] := by
  obtain ⟨r, below, act, next, hr, ht, htook⟩ := step_turns h
  rw [Expression, hr] at hp
  cases below with
  | cons s below =>
    refine .inl ?_
    rw [Expression, htook.roles_eq, List.getLast?_append_of_ne_nil _ (List.cons_ne_nil s below)]
    exact hp
  | nil =>
    obtain rfl : r = .operator := by simpa using hp
    obtain ⟨mode, below, hm, hrole, hbelow⟩ := modes_of_roles hr
    obtain rfl := mode_of_role.1 hrole
    obtain rfl : below = [] := List.map_eq_nil_iff.1 hbelow
    have hroles := htook.roles_eq
    rw [List.append_nil] at hroles
    rw [Expression, hroles]
    cases ht with
    | operatorEnd =>
      rw [step_cons hm] at h
      exact .inr ⟨hm, readOperator_ends hm h (List.map_eq_nil_iff.1 hroles)⟩
    | _ => exact .inl rfl

/-- What a turn makes on top of other parts, it makes in the part alone. -/
theorem perform_apart {r : Role} {act : Act} {next inner : List Role} {a b : Assembly} {k : Nat} (ht : Turn r act next)
    (hb : Bears outer base) (hl : Laid (frames (r :: inner) ++ frames (Mode.roles outer)) (base.atop f a))
    (ha : a.Begun ∨ a.items = [] ∧ r = .operand) (hg : act = .closeGroup → a.hasOpenGroup = true)
    (h : act.perform (f k) (base.atop f a) = .ok b) : ∃ c, act.perform k a = .ok c ∧ b = base.atop f c := by
  obtain ⟨c, hc⟩ := Act.perform_of_atop hb.firm (ht.within hl hb.laid hg) h k
  have hatop := ht.perform_atop (f := f) hb.firm (ha.imp .inl id) hc
  exact ⟨c, hc, Except.ok.inj (h.symm.trans hatop)⟩

/-- A step on top of other parts is one of the part, or the expression that is read there has ended. -/
theorem step_apart (h : (part.above outer).Atop f base [] m) (hf : ∀ i, f (i + 1) = f i + 1) (hb : Bears outer base)
    (hl : Laid (frames m.roles) m.assembly) (hp : part.Expression) (hbegun : part.Begun) (hs : m.step env = .ok n) :
    ∃ next, (next.above outer).Atop f base [] n ∧
      (part.step env = .ok next ∧ next.Expression ∨ part.modes = [.operator] ∧ next = part.goto []) := by
  obtain ⟨r₀, inner, hinner⟩ : ∃ r inner, part.roles = r :: inner := by
    refine List.exists_cons_of_ne_nil ?_
    intro hr
    rw [Expression, hr] at hp
    cases hp
  have hne : part.modes ≠ [] := by
    intro hm
    rw [roles, hm] at hinner
    cases hinner
  have habove : m.roles = (r₀ :: inner) ++ Mode.roles outer := by
    rw [roles, h.modes, ← hinner]
    exact List.map_append
  have hgroup : m.assembly.hasOpenGroup = part.assembly.hasOpenGroup := by
    rw [h.assembly]
    exact Assembly.hasOpenGroup_atop_of_closed hb.closed _
  have hnext : m.rest.head? = (part.above outer).rest.head? := by rw [h.rest, List.append_nil]
  have hmodes : (part.above outer).modes ≠ [] := by simp [above, hne]
  obtain ⟨r, below, hroles, v, hv, hx, hy⟩ :=
    @step_move_of (part.above outer) m env h.modes hnext (fun _ _ => hgroup) hmodes
  obtain rfl : r₀ = r := by
    have hsame : (part.above outer).roles = m.roles := by rw [roles, roles, h.modes]
    rw [hsame, habove] at hroles
    exact (List.cons.inj hroles).1
  rw [hy] at hs
  cases hv with
  | refuse => cases hs
  | @take past act modes next ht _ hc =>
    rw [makes] at hs
    split at hs
    · next b hperform =>
      cases hs
      have hopen : act = .closeGroup → part.assembly.hasOpenGroup = true := by
        rintro rfl
        obtain ⟨below, c, rest, -, hcases⟩ := closer?_cases hc
        have hgroup : (part.above outer).assembly.hasOpenGroup = true := by simp at hcases; exact hcases.2.2
        exact hgroup
      have hroots : m.roots = f part.roots := h.roots
      rw [habove, Role.frames_append, h.assembly] at hl
      rw [h.assembly, hroots] at hperform
      obtain ⟨c, hpart, rfl⟩ := perform_apart ht hb hl (hbegun.operand hinner) hopen hperform
      have hstep : (part.above outer).step env = .ok { (part.above outer).skip (part.above outer).rest past with
          modes, assembly := c, roots := part.roots + act.roots } := by
        rw [hx, makes, show act.perform (part.above outer).roots (part.above outer).assembly = .ok c from hpart]
        rfl
      have hatop := h.take hf (.inr rfl) past modes act c
      obtain ⟨hm, he⟩ | ⟨next, hnext, he⟩ := step_of_above hne hstep
      · exact ⟨part.goto [], he ▸ hatop, .inr ⟨hm, rfl⟩⟩
      · refine ⟨next, he ▸ hatop, ?_⟩
        obtain hexpression | hends := hp.step hnext
        · exact .inl ⟨hnext, hexpression⟩
        · exact .inr hends
    · cases hs

end Machine

end PathQuery
