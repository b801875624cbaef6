import PathQuery.Proofs.Query.CallNodes
import PathQuery.Proofs.Query.CallSigns
import PathQuery.Proofs.Query.WrittenCalls

namespace PathQuery

open Role (frames)
open Syntax (Blanks argumentItems)

/-- A program is the test of the filter on the document that has this text, but for the numbers of the occurrences of
the root. -/
def Program.IsOfText (env : Env) (text : String) (p : Program) : Prop :=
  ∃ (q : Program) (k : Nat), Program.ofText env ("$[?" ++ text ++ "]") =
    .ok [.root, .path [.root 0, .filter (renumberProgram (1 + ·) q)]] ∧ p = renumberProgram (k + ·) q

/-- A call that has been compiled as it is written: the function is the one that its name stands for, it takes as many
arguments as are written, and its arguments are the programs of their texts, in their order. -/
structure WrittenCall.Compiles (env : Env) (w : WrittenCall) (c : CallNode) : Prop where
  found : Function.find? w.name env.functions = some c.function
  accepts : c.function.accepts w.arguments.length = true
  arguments : List.Forall₂ (Program.IsOfText env) w.arguments c.arguments

/-- Behind some text. -/
def OpenCall.hears (text : List Char) (o : OpenCall) : OpenCall := { o with text := text.reverse ++ o.text }

theorem OpenCall.map_hears_nil (os : List OpenCall) : os.map (·.hears []) = os := List.map_id'' (fun _ => rfl) os

theorem OpenCall.close_of_blanks {o : OpenCall} (hb : o.before = []) (ht : Blanks o.text) :
    o.close = ⟨o.name, []⟩ := by
  have hall : o.text.all Text.isSpace = true := List.all_eq_true.2 ht
  simp [close, hb, hall]

theorem OpenCall.close_of_not_blanks {o : OpenCall} (ht : ¬Blanks o.text) :
    o.close = ⟨o.name, o.before ++ [o.last]⟩ := by
  have hall : o.text.all Text.isSpace = false := Bool.eq_false_iff.2 fun h => ht (List.all_eq_true.1 h)
  simp [close, hall]

section brackets

variable {inner outer : List Frame} {top bottom : List Pending}

/-- The parenthesis of a call is among the brackets that are open behind it. -/
theorem Waits.brackets_inside {pending : List Pending} {fs : List Frame} (h : Waits fs pending)
    (hb : Waits outer bottom) (hf : fs = inner ++ .call :: outer) (hp : pending = top ++ .scope :: bottom) :
    ∃ bs, Frame.brackets fs pending = bs ++ .round :: Frame.brackets outer bottom := by
  induction h generalizing inner top with
  | base => simp at hp
  | @list fs pending h ih =>
    cases inner with
    | nil => cases hf
    | cons frame inner =>
      obtain ⟨rfl, rfl⟩ := List.cons.inj hf
      obtain ⟨bs, hbs⟩ := ih rfl hp
      exact ⟨.square :: bs, by rw [Frame.brackets_list, hbs, List.cons_append]⟩
  | @scope frame fs pending hne h ih =>
    -- of the scopes that wait, the call has the one above those of the constructs around it
    have hscopes := h.countP_isScope
    have houter := hb.countP_isScope
    cases inner with
    | nil =>
      obtain ⟨rfl, rfl⟩ := List.cons.inj hf
      cases top with
      | nil =>
        obtain ⟨-, rfl⟩ := List.cons.inj hp
        exact ⟨[], rfl⟩
      | cons w top =>
        rw [List.cons_append] at hp
        obtain ⟨-, rfl⟩ := List.cons.inj hp
        rw [List.countP_append, List.countP_cons_of_pos (show Pending.isScope .scope from rfl)] at hscopes
        omega
    | cons other inner =>
      rw [List.cons_append] at hf
      obtain ⟨rfl, rfl⟩ := List.cons.inj hf
      cases top with
      | nil =>
        obtain ⟨-, rfl⟩ := List.cons.inj hp
        rw [List.countP_append, List.countP_cons_of_pos (show Frame.scoped .call from rfl)] at hscopes
        omega
      | cons w top =>
        obtain ⟨-, rfl⟩ := List.cons.inj hp
        obtain ⟨bs, hbs⟩ := ih rfl rfl
        cases frame with
        | list => exact absurd rfl hne
        | call => exact ⟨.round :: bs, by rw [Frame.brackets_call, hbs, List.cons_append]⟩
        | filter => exact ⟨bs, by rw [Frame.brackets_filter, hbs]⟩
        | computed => exact ⟨bs, by rw [Frame.brackets_computed, hbs]⟩
  | @operator frame fs pending op hne h ih =>
    cases top with
    | nil => cases hp
    | cons w top =>
      obtain ⟨rfl, rfl⟩ := List.cons.inj hp
      rw [Frame.brackets_operator]
      exact ih hf rfl
  | @group frame fs pending hne h ih =>
    cases top with
    | nil => cases hp
    | cons w top =>
      obtain ⟨rfl, rfl⟩ := List.cons.inj hp
      obtain ⟨bs, hbs⟩ := ih hf rfl
      exact ⟨.round :: bs, by rw [Frame.brackets_group _ _ ⟨frame, fs, rfl, hne⟩, hbs, List.cons_append]⟩

end brackets

namespace Assembly

variable {a b part : Assembly} {g : Function} {ps : List Program} {p : Program} {f : Nat → Nat}

/-- A call is closed behind its arguments only if their number is accepted. -/
theorem closeCall_withArguments_cases (hp : ∀ p ∈ ps, Program.height? 0 p = some 1)
    (h : (a.withArguments g ps).closeCall = .ok b) :
    g.accepts ps.length = true ∧ b = a.pushSelector (.call g ps) := by
  have hscope : (a.withArguments g ps).closeScope =
      .ok ⟨(argumentItems ps).reverse ++ .mark (.call g) :: a.items, a.pending⟩ := rfl
  simp only [closeCall, closeLastArgument_withArguments, bind, Except.bind, hscope, takeTo_withArguments,
    argumentsOf_argumentItems hp] at h
  split at h
  · next haccepts =>
    cases h
    exact ⟨haccepts, rfl⟩
  · cases h

theorem height_append (h : ∀ p ∈ ps, Program.height? 0 p = some 1) (hp : Program.height? 0 p = some 1) :
    ∀ q ∈ ps ++ [renumberProgram f p], Program.height? 0 q = some 1 := by
  intro q hq
  rcases List.mem_append.1 hq with hq | hq
  · exact h q hq
  · rw [List.mem_singleton.1 hq, Program.height?_renumber]
    exact hp

/-- Where an argument is complete its program joins the others. -/
theorem closeArgument_program (hs : part.settled = ⟨(p.map .instr).reverse, []⟩) :
    ((a.withArguments g ps).atop f part).closeArgument = .ok (a.withArguments g (ps ++ [renumberProgram f p])) := by
  rw [closeArgument, settleScope, settled_atop (Syntax.firm_scope _), hs]
  simp [atop, under, withArguments, argumentItems, Except.map, pushMark, renumberProgram_eq, Item.renumber,
    Function.comp_def]

/-- Where an argument can be completed no parenthesis is open. -/
theorem hasOpenGroup_of_closeArgument (h : a.closeArgument = .ok b) : a.hasOpenGroup = false := by
  obtain ⟨c, hc, -⟩ := closeArgument_cases h
  obtain ⟨ops, rest, hp, -⟩ := settleScope_cases hc
  rw [hasOpenGroup, hp, hasOpenGroup_operators]
  rfl

/-- The parentheses that are open in an argument are those that have been opened there. -/
theorem hasOpenGroup_atop_withArguments : ((a.withArguments g ps).atop f part).hasOpenGroup = part.hasOpenGroup :=
  hasOpenGroup_atop_of_closed rfl part

/-- A call is closed as it would be with its last argument complete. -/
theorem closeCall_of_closeLastArgument (h : b.closeLastArgument = .ok (a.withArguments g ps)) :
    b.closeCall = (a.withArguments g ps).closeCall := by
  rw [closeCall, closeCall, h, closeLastArgument_withArguments]

theorem assembly_withArguments (a : Assembly) (g : Function) (ps : List Program) :
    callGathering.assembly (a.withArguments g ps) =
      callGathering.assembly a ++ ps.flatMap callGathering.program := by
  have hitems : callGathering.items (argumentItems ps) = ps.flatMap callGathering.program := by
    induction ps with
    | nil => rfl
    | cons p ps ih =>
      rw [argumentItems, List.flatMap_cons, ← argumentItems, Gathering.items_append, Gathering.items_append,
        Gathering.items_instrs, ih]
      simp
  simp [withArguments, Gathering.assembly, hitems]

end Assembly

namespace Machine

variable {m n k part : Machine} {env : Env} {below : List Mode} {o : OpenCall} {c : Char}
  {rest past : List Char}

/-- How far the latest argument of a call has been read, in the part of the machine that belongs to it. -/
inductive Latest (env : Env) (o : OpenCall) (part : Machine) : Prop
  /-- There may still be no argument at all. -/
  | before (hm : part.modes = [.firstArgument]) (ha : part.assembly = .empty) (hb : o.before = []) (ht : Blanks o.text)
  | without (hm : part.modes = []) (ha : part.assembly = .empty) (hb : o.before = []) (ht : Blanks o.text)
      (hr : part.rest.head? = some ')')
  | reading (h : Reaches env (expression (o.text.reverse ++ part.rest)) part) (he : part.Expression)
  | complete {k : Machine} (h : Reaches env (expression (o.text.reverse ++ k.rest)) k) (hm : k.modes = [.operator])
      (hp : part = k.goto [])

/-- A call is open above some modes: of what is below its parenthesis, of its arguments that are complete, and of the
one that is being read. -/
inductive InCall (env : Env) (o : OpenCall) (below : List Mode) (m : Machine) : Prop
  | mk {g : Function} {a : Assembly} {ps : List Program} {r : Nat} {part : Machine}
      (found : Function.find? o.name env.functions = some g) (laid : Laid (frames (Mode.roles below)) a)
      (around : o.around = (Frame.brackets (frames (Mode.roles below)) a.pending).length)
      (before : List.Forall₂ (Program.IsOfText env) o.before ps) (height : ∀ p ∈ ps, Program.height? 0 p = some 1)
      (atop : (part.above (.arguments :: below)).Atop (r + ·) (a.withArguments g ps) [] m) (latest : Latest env o part)

/-- The inside of a call can be read on top of what is below its parenthesis. -/
theorem bears_withArguments {a : Assembly} (h : Laid (frames (Mode.roles below)) a) (g : Function) (ps : List Program) :
    Bears (.arguments :: below) (a.withArguments g ps) := by
  refine ⟨rfl, ?_, Syntax.firm_scope _, rfl⟩
  have hopened : Laid (.call :: frames (Mode.roles below)) (a.openScope (.call g)) := h.openScope (by nofun) (.call g)
  refine ⟨Laid.layout_append (by nofun) hopened.layout ?_, hopened.waits⟩
  intro i hi
  simp only [argumentItems, List.mem_reverse, List.mem_flatMap, List.mem_append, List.mem_map, List.mem_singleton] at hi
  obtain ⟨p, -, ⟨instr, -, rfl⟩ | rfl⟩ := hi
  · exact .instr instr
  · exact .argument

theorem begun_expression (text : List Char) : (expression text).Begun := .inr ⟨rfl, [.operator], rfl⟩

/-- Blanks before an expression are passed. -/
theorem reaches_blanks {blanks : List Char} (hb : Blanks blanks) (rest : List Char) :
    ∃ position, Reaches env (expression (blanks ++ rest)) ⟨rest, position, [.operand, .operator], .empty, 0⟩ :=
  Syntax.comes_blanks rfl hb .start

namespace Latest

variable {base : Assembly} {r : Nat}

/-- Behind the parenthesis of a call blanks are passed, and then there is an argument or none. -/
theorem step_before (hp : part.modes = [.firstArgument]) (ha : part.assembly = .empty) (hb : o.before = [])
    (ht : Blanks o.text) (h : (part.above (.arguments :: below)).Atop (r + ·) base [] m) (hs : m.step env = .ok n)
    (hr : m.rest = past ++ n.rest) : ∃ i next, (above next (.arguments :: below)).Atop (i + ·) base [] n ∧
      Latest env (o.hears past) next := by
  have hmodes : m.modes = .firstArgument :: .arguments :: below := by rw [h.modes, above, hp]; rfl
  have hrest : m.rest = part.rest := by rw [h.rest, List.append_nil]; rfl
  have hkept : ∀ {text : List Char}, text = past ++ text → past = [] := fun h => by simpa using h
  have hread : m.readFirstArgument (.arguments :: below) m.rest = .ok n := by
    rw [step_cons hmodes] at hs
    exact hs
  cases hm : m.rest with
  | nil =>
    rw [hm] at hread
    cases hread
  | cons c rest =>
    rw [hm, readFirstArgument] at hread
    split_ifs at hread with hspace hclose
    · cases hread
      obtain rfl : past = [c] := List.append_cancel_right (hr.symm.trans hm)
      refine ⟨r, { part with rest }, ⟨(List.append_nil rest).symm, h.modes, h.assembly, h.roots⟩, ?_⟩
      exact .before hp ha hb (List.forall_mem_cons.2 ⟨hspace, ht⟩)
    · cases hread
      obtain rfl := hkept hr
      refine ⟨r, part.goto [], ⟨h.rest, rfl, h.assembly, h.roots⟩, .without rfl ha hb ht ?_⟩
      rw [goto_rest, ← hrest, hm, hclose]
      rfl
    · cases hread
      obtain rfl := hkept hr
      obtain ⟨position, hreach⟩ := @reaches_blanks env o.text.reverse (fun c hc => ht c (List.mem_reverse.1 hc)) m.rest
      refine ⟨m.roots, ⟨m.rest, position, [.operand, .operator], .empty, 0⟩, ⟨(List.append_nil _).symm, rfl, ?_, rfl⟩,
        .reading hreach rfl⟩
      rw [goto, h.assembly, above, ha]
      rfl

/-- An argument that is being read goes on, or is complete before the next character. -/
theorem step_reading (hreach : Reaches env (expression (o.text.reverse ++ part.rest)) part) (hp : part.Expression)
    (h : (part.above (.arguments :: below)).Atop (r + ·) base [] m) (hb : Bears (.arguments :: below) base)
    (hm : m.Fitting) (hs : m.step env = .ok n) (hr : m.rest = past ++ n.rest) :
    ∃ next, (above next (.arguments :: below)).Atop (r + ·) base [] n ∧ Latest env (o.hears past) next := by
  have hrest : m.rest = part.rest := by rw [h.rest, List.append_nil]; rfl
  obtain ⟨next, hatop, hnext⟩ := step_apart h (fun _ => Nat.add_assoc r _ 1) hb hm.laid hp
    (hreach.keeps begun_step (begun_expression _)) hs
  have hn : n.rest = next.rest := by rw [hatop.rest, List.append_nil]; rfl
  refine ⟨next, hatop, ?_⟩
  obtain ⟨hstep, hp'⟩ | ⟨hoperator, rfl⟩ := hnext
  · refine .reading ?_ hp'
    have htext : (o.hears past).text.reverse ++ next.rest = o.text.reverse ++ part.rest := by
      rw [← hrest, hr, hn]
      simp [OpenCall.hears]
    rw [htext]
    exact hreach.trans (.step hstep (.refl _))
  · obtain rfl : past = [] := by
      have hsame : m.rest = past ++ m.rest := hr.trans (congrArg (past ++ ·) (hn.trans hrest.symm))
      simpa using hsame
    exact .complete hreach hoperator rfl

end Latest

/-- What has been read before an expression that starts with blanks. -/
def BeforeOperand (c : Char) (rest : List Char) (m : Machine) : Prop :=
  m.modes = [.operand, .operator] ∧ ∃ blanks, Blanks blanks ∧ m.rest = blanks ++ c :: rest

theorem BeforeOperand.step (hc : EndsExpression c) (h : BeforeOperand c rest m) (hs : m.step env = .ok n) :
    BeforeOperand c rest n := by
  obtain ⟨hm, blanks, hb, hr⟩ := h
  rw [step_cons hm, stepIn, hr] at hs
  cases blanks with
  | nil => obtain rfl | rfl := hc <;> cases hs
  | cons b blanks =>
    rw [List.cons_append, readOperand, if_pos (hb b List.mem_cons_self)] at hs
    cases hs
    exact ⟨hm, blanks, fun c hc => hb c (List.mem_cons_of_mem _ hc), rfl⟩

section program

variable {a : Assembly} {g : Function} {ps : List Program} {f : Nat → Nat}

/-- An argument that is complete does not consist of blanks. -/
theorem not_blanks_of_reaches (hc : EndsExpression c) (h : Reaches env (expression (o.text.reverse ++ c :: rest)) k)
    (hm : k.modes = [.operator]) : ¬Blanks o.text := by
  intro hb
  have hblanks : Blanks o.text.reverse := fun d hd => hb d (List.mem_reverse.1 hd)
  obtain ⟨hmodes, -⟩ := h.keeps (BeforeOperand.step hc) ⟨rfl, _, hblanks, rfl⟩
  rw [hm] at hmodes
  cases hmodes

/-- An argument that is complete is the program of its text. -/
theorem isOfText_of_reaches (hc : EndsExpression c) (h : Reaches env (expression (o.text.reverse ++ c :: rest)) k)
    (hr : k.rest = c :: rest) (hm : k.modes = [.operator]) (hg : k.assembly.hasOpenGroup = false) :
    ∃ p : Program, k.assembly.settled = ⟨(p.map .instr).reverse, []⟩ ∧ Program.height? 0 p = some 1 ∧
      ∀ i, Program.IsOfText env o.last (renumberProgram (i + ·) p) := by
  obtain ⟨p, hs, hp, hrun⟩ := h.exists_program hc hr hm hg
  refine ⟨p, hs, hp, fun i => ⟨p, i, ?_, rfl⟩⟩
  rw [← hrun, Program.ofText, OpenCall.last]
  simp

/-- Behind an argument that is complete stands an instruction. -/
theorem head?_of_reaches (h : Reaches env (expression (o.text.reverse ++ k.rest)) k) (hm : k.modes = [.operator])
    {p : Program} (hs : k.assembly.settled = ⟨(p.map .instr).reverse, []⟩) :
    ∃ i, k.assembly.items.head? = some (.instr i) := by
  obtain ⟨j, hj⟩ | ⟨-, below, hr⟩ : k.Begun := h.keeps begun_step (begun_expression _)
  · obtain ⟨i, items, hi⟩ : ∃ i items, k.assembly.items = i :: items := by
      cases hitems : k.assembly.items with
      | nil => simp [hitems] at hj
      | cons i items => exact ⟨i, items, rfl⟩
    obtain ⟨ops, rest, -, hsettled⟩ := Assembly.settled_eq k.assembly
    have hmem : i ∈ (p.map Item.instr).reverse := by
      have hitems : (p.map Item.instr).reverse = Assembly.settledItems ops ++ k.assembly.items :=
        congrArg Assembly.items (hs.symm.trans hsettled)
      rw [hitems, hi]
      simp
    obtain ⟨instr, -, rfl⟩ := List.mem_map.1 (List.mem_reverse.1 hmem)
    exact ⟨instr, by rw [hi]; rfl⟩
  · rw [roles, hm] at hr
    cases hr

/-- Where the arguments end there is none, or the latest is complete. -/
theorem Latest.ended (h : Latest env o part) (hp : part.modes = []) (hc : EndsExpression c) (hr : part.rest = c :: rest)
    (hg : part.assembly.hasOpenGroup = false) :
    (c = ')' ∧ o.before = [] ∧ Blanks o.text ∧ part.assembly = .empty) ∨
      (¬Blanks o.text ∧ (∃ i, part.assembly.items.head? = some (.instr i)) ∧ ∃ p : Program,
        part.assembly.settled = ⟨(p.map .instr).reverse, []⟩ ∧ Program.height? 0 p = some 1 ∧
          ∀ i, Program.IsOfText env o.last (renumberProgram (i + ·) p)) := by
  cases h with
  | before hm =>
    rw [hm] at hp
    cases hp
  | without _ ha hb ht hparenthesis =>
    rw [hr] at hparenthesis
    cases hparenthesis
    exact .inl ⟨rfl, hb, ht, ha⟩
  | reading _ he =>
    rw [Expression, roles, hp] at he
    cases he
  | @complete k hreach hm hk =>
    subst hk
    have hreach' : Reaches env (expression (o.text.reverse ++ c :: rest)) k := hr ▸ hreach
    obtain ⟨p, hs, hheight, htext⟩ := isOfText_of_reaches hc hreach' hr hm hg
    exact .inr ⟨not_blanks_of_reaches hc hreach' hm, head?_of_reaches (k := k) hreach hm hs, p, hs, hheight, htext⟩

end program

namespace InCall

/-- The parenthesis of a call is among the brackets that are open behind it. -/
theorem brackets (h : InCall env o below m) (hm : m.Fitting) :
    ∃ bs rest, Frame.brackets (frames m.roles) m.assembly.pending = bs ++ .round :: rest ∧ rest.length = o.around := by
  cases h with
  | @mk g a ps r part found laid around before height atop latest =>
    have hframes : frames m.roles = frames part.roles ++ .call :: frames (Mode.roles below) := by
      rw [roles, atop.modes, above, Mode.roles, List.map_append, Role.frames_append]
      rfl
    obtain ⟨bs, hbs⟩ := hm.laid.waits.brackets_inside laid.waits hframes (congrArg Assembly.pending atop.assembly)
    exact ⟨bs, _, hbs, around.symm⟩

/-- A step that is not behind the arguments of a call leaves it open. -/
theorem step (h : InCall env o below m) (hm : m.Fitting) (hne : m.modes ≠ .arguments :: below) (hs : m.step env = .ok n)
    (hr : m.rest = past ++ n.rest) : InCall env (o.hears past) below n := by
  cases h with
  | @mk g a ps r part found laid around before height atop latest =>
    have hmodes : m.modes = part.modes ++ .arguments :: below := atop.modes
    cases latest with
    | without hp | complete _ _ hp =>
      rw [hp] at hmodes
      exact absurd hmodes hne
    | before hp ha hb ht =>
      obtain ⟨i, next, hatop, hlatest⟩ := Latest.step_before hp ha hb ht atop hs hr
      exact .mk found laid around before height hatop hlatest
    | reading hreach hp =>
      obtain ⟨next, hatop, hlatest⟩ :=
        Latest.step_reading hreach hp atop (bears_withArguments laid g ps) hm hs hr
      exact .mk found laid around before height hatop hlatest

/-- Behind an argument and a comma the next one is read. -/
theorem next (h : InCall env o below m) (hm : m.modes = .arguments :: below) (hr : m.rest = ',' :: rest)
    (hs : m.step env = .ok n) : n.modes = .operand :: .operator :: .arguments :: below ∧ InCall env o.next below n ∧
      (Frame.brackets (frames n.roles) n.assembly.pending).length = o.around + 1 ∧
      callGathering.assembly n.assembly = callGathering.assembly m.assembly := by
  have hread : ((m.past ',' rest).attempt Assembly.closeArgument).map
      (·.goto (.operand :: .operator :: .arguments :: below)) = .ok n := by
    rw [step_cons hm, stepIn, hr] at hs
    exact hs
  obtain ⟨b, hb, rfl⟩ := attempt_goto_ok hread
  refine ⟨rfl, ?_⟩
  cases h with
  | @mk g a ps r part found laid around before height atop latest =>
    have hpart : part.modes = [] := List.append_cancel_right (atop.modes.symm.trans hm)
    have hrest : part.rest = ',' :: rest := by rw [← hr, atop.rest, List.append_nil]; rfl
    have hclose : ((a.withArguments g ps).atop (r + ·) part.assembly).closeArgument = .ok b := atop.assembly ▸ hb
    have hg : part.assembly.hasOpenGroup = false :=
      Assembly.hasOpenGroup_atop_withArguments.symm.trans (Assembly.hasOpenGroup_of_closeArgument hclose)
    obtain ⟨hc, -⟩ | ⟨-, -, p, hsettled, hp, htext⟩ := latest.ended hpart (.inl rfl) hrest hg
    · cases hc
    · rw [Assembly.closeArgument_program hsettled] at hclose
      cases hclose
      refine ⟨.mk found laid around (List.rel_append before (.cons (htext r) .nil)) (Assembly.height_append height hp)
        (?_ : ((expression rest).above (.arguments :: below)).Atop (m.roots + ·) _ [] _) (.reading (.refl _) rfl), ?_,
        callGathering.assembly_closeArgument hb⟩
      · exact ⟨(List.append_nil rest).symm, rfl, rfl, rfl⟩
      · rw [around]
        rfl

/-- The last argument of a call is completed where it is closed, if there is one. -/
theorem last (h : InCall env o below m) (hm : m.modes = .arguments :: below) (hg : m.assembly.hasOpenGroup = false)
    (hr : m.rest = ')' :: rest) : ∃ (g : Function) (a : Assembly) (ps : List Program),
      Function.find? o.name env.functions = some g ∧
      o.around = (Frame.brackets (frames (Mode.roles below)) a.pending).length ∧
      m.assembly.closeLastArgument = .ok (a.withArguments g ps) ∧
      List.Forall₂ (Program.IsOfText env) o.close.arguments ps ∧ ∀ p ∈ ps, Program.height? 0 p = some 1 := by
  cases h with
  | @mk g a ps r part found laid around before height atop latest =>
    have hpart : part.modes = [] := List.append_cancel_right (atop.modes.symm.trans hm)
    have hrest : part.rest = ')' :: rest := by rw [← hr, atop.rest, List.append_nil]; rfl
    have hassembly : m.assembly = (a.withArguments g ps).atop (r + ·) part.assembly := atop.assembly
    rw [hassembly, Assembly.hasOpenGroup_atop_withArguments] at hg
    refine ⟨g, a, ?_⟩
    rw [hassembly]
    obtain ⟨-, hb, ht, ha⟩ | ⟨ht, ⟨i, hi⟩, p, hsettled, hp, htext⟩ := latest.ended hpart (.inr rfl) hrest hg
    · refine ⟨ps, found, around, ?_, ?_, height⟩
      · rw [ha]
        exact Assembly.closeLastArgument_withArguments g ps
      · rw [OpenCall.close_of_blanks hb ht, ← hb]
        exact before
    · refine ⟨ps ++ [renumberProgram (r + ·) p], found, around, ?_, ?_, Assembly.height_append height hp⟩
      · have hhead : ((a.withArguments g ps).atop (r + ·) part.assembly).items.head? =
            some (Item.renumber (r + ·) (.instr i)) := by
          rw [Assembly.atop, Assembly.under, List.head?_append, List.head?_map, hi]
          rfl
        rw [Assembly.closeLastArgument, hhead, Assembly.closeArgument_program hsettled]
        rfl
      · rw [OpenCall.close_of_not_blanks ht]
        exact List.rel_append before (.cons (htext r) .nil)

/-- Behind the parenthesis that closes a call its node is there. -/
theorem close (h : InCall env o below m) (hm : m.modes = .arguments :: below) (hg : m.assembly.hasOpenGroup = false)
    (hr : m.rest = ')' :: rest) (hs : m.step env = .ok n) : n.modes = below ∧
      (Frame.brackets (frames n.roles) n.assembly.pending).length = o.around ∧ ∃ c : CallNode,
        o.close.Compiles env c ∧ callGathering.assembly n.assembly = callGathering.assembly m.assembly ++ [c] := by
  have hread : ((m.past ')' rest).attempt Assembly.closeCall).map (·.goto below) = .ok n := by
    rw [step_cons hm, stepIn, hr] at hs
    exact hs
  obtain ⟨b, hb, rfl⟩ := attempt_goto_ok hread
  obtain ⟨g, a, ps, found, around, hlast, hps, height⟩ := h.last hm hg hr
  have hclose : (a.withArguments g ps).closeCall = .ok b :=
    (Assembly.closeCall_of_closeLastArgument hlast).symm.trans hb
  obtain ⟨haccepts, rfl⟩ := Assembly.closeCall_withArguments_cases height hclose
  refine ⟨rfl, ?_, ⟨g, ps⟩, ⟨found, hps.length_eq ▸ haccepts, hps⟩, ?_⟩
  · rw [around, Assembly.pushSelector_pending]
    rfl
  rw [← callGathering.assembly_closeLastArgument hlast, Assembly.assembly_withArguments, List.append_assoc,
    callGathering.assembly_pushSelector, callGathering.path_call]
  rfl

/-- Behind the name of a call and a parenthesis the call is open. -/
theorem opens {mode : Mode} {name : String} {g : Function} {around : List Mode} (hf : m.Fitting)
    (hm : m.modes = mode :: below) (hn : mode.Names name) (hg : Function.find? name env.functions = some g)
    (hn' : n.modes = .firstArgument :: .arguments :: (around ++ below)) (ha : around = [] ∨ around = [.path])
    (hb : n.assembly = (m.assembly.push .current).openScope (.call g)) :
    InCall env ⟨name, (Frame.brackets (frames m.roles) m.assembly.pending).length, [], []⟩ (around ++ below) n := by
  have hframes : frames (Mode.roles (around ++ below)) = frames m.roles := by
    rw [roles, hm]
    obtain rfl | rfl := ha <;> cases hn <;> rfl
  have hatop : (above ⟨n.rest, n.position, [.firstArgument], .empty, 0⟩ (.arguments :: (around ++ below))).Atop
      (n.roots + ·) ((m.assembly.push .current).withArguments g []) [] n :=
    ⟨(List.append_nil _).symm, hn', hb, rfl⟩
  refine .mk hg ?_ ?_ .nil (by simp) hatop (.before rfl rfl rfl (by simp [Blanks]))
  · rw [hframes]
    exact hf.laid.pushAnchor .current
  · rw [hframes]
    rfl

end InCall

end Machine

end PathQuery
