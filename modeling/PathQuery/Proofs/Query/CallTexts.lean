import PathQuery.Proofs.Query.CallsMade
import PathQuery.Proofs.Query.OpenCalls

namespace PathQuery

open Role (frames)
open Mode (Stacked)

/-- Behind an operand a parenthesis opens a call. -/
theorem Lexing.read_open {σ : Lexing} (ht : σ.token.continues '(' = false) (hd : σ.due = .suffix) :
    σ.read '(' = ⟨.none, .operand, .round :: σ.brackets⟩ := by
  have hspace : ¬Text.isSpace '(' = true := by decide
  rw [read, if_neg (by simp [ht]), if_neg hspace, hd]
  rfl

namespace CallScan

variable {σ : CallScan} {c : Char}

theorem read_lexing (σ : CallScan) (c : Char) : (σ.read c).lexing = σ.lexing.read c := by
  rw [read]
  split_ifs
  · rfl
  · rfl
  · simp only [first]
    split
    · rfl
    · split
      · rfl
      · split_ifs <;> rfl

theorem first_word (σ : CallScan) (c : Char) : (σ.first c).word = [c] := by
  simp only [first]
  split
  · rfl
  · split
    · rfl
    · split_ifs <;> rfl

/-- A character that is no sign of a call is only heard. -/
theorem read_hears (h : σ.lexing.token.continues c = true ∨ Text.isSpace c = true ∨ (c = '(' → σ.lexing.due ≠ .suffix) ∧
      ∀ o ∈ σ.opened.head?, (c = ',' → (σ.lexing.read c).brackets.length ≠ o.around + 1) ∧
        (c = ')' → (σ.lexing.read c).brackets.length ≠ o.around)) :
    (σ.read c).opened = σ.opened.map (·.hears [c]) ∧ (σ.read c).closed = σ.closed := by
  rw [read]
  split_ifs with htoken hspace
  · exact ⟨rfl, rfl⟩
  · exact ⟨rfl, rfl⟩
  · obtain h | h | ⟨hopen, hsigns⟩ := h
    · exact absurd h htoken
    · exact absurd h hspace
    · rw [first, if_neg (by simpa using hopen)]
      cases ho : σ.opened with
      | nil => exact ⟨rfl, rfl⟩
      | cons o others =>
        obtain ⟨hcomma, hclose⟩ := hsigns o (by simp [ho])
        dsimp only
        rw [if_neg (by simpa using hcomma), if_neg (by simpa using hclose)]
        exact ⟨rfl, rfl⟩

theorem read_open (ht : σ.lexing.token.continues '(' = false) (hd : σ.lexing.due = .suffix) :
    (σ.read '(').opened = ⟨String.ofList σ.word.reverse, σ.lexing.brackets.length, [], []⟩ ::
      σ.opened.map (·.hears ['(']) ∧ (σ.read '(').closed = σ.closed := by
  have hspace : ¬Text.isSpace '(' = true := by decide
  rw [read, if_neg (by simp [ht]), if_neg hspace, first, if_pos (by simp [hd])]
  exact ⟨rfl, rfl⟩

theorem read_comma {o : OpenCall} {others : List OpenCall} (ht : σ.lexing.token.continues ',' = false)
    (ho : σ.opened = o :: others) (hb : (σ.lexing.read ',').brackets.length = o.around + 1) :
    (σ.read ',').opened = o.next :: others.map (·.hears [',']) ∧ (σ.read ',').closed = σ.closed := by
  have hspace : ¬Text.isSpace ',' = true := by decide
  rw [read, if_neg (by simp [ht]), if_neg hspace, first, if_neg (by simp)]
  simp only [ho]
  rw [if_pos (by simp [hb])]
  exact ⟨rfl, rfl⟩

theorem read_close {o : OpenCall} {others : List OpenCall} (ht : σ.lexing.token.continues ')' = false)
    (ho : σ.opened = o :: others) (hb : (σ.lexing.read ')').brackets.length = o.around) :
    (σ.read ')').opened = others.map (·.hears [')']) ∧ (σ.read ')').closed = σ.closed ++ [o.close] := by
  have hspace : ¬Text.isSpace ')' = true := by decide
  rw [read, if_neg (by simp [ht]), if_neg hspace, first, if_neg (by simp)]
  simp only [ho]
  rw [if_neg (by simp), if_pos (by simp [hb])]
  exact ⟨rfl, rfl⟩

end CallScan

namespace Machine

variable {m n : Machine} {env : Env} {modes below : List Mode} {mode : Mode} {os : List OpenCall}
  {past : List Char}

/-- The calls that are open in some modes, innermost first. -/
def InCalls (env : Env) (m : Machine) : List OpenCall → List Mode → Prop
  | [], modes => .arguments ∉ modes
  | o :: os, modes => ∃ top below, modes = top ++ .arguments :: below ∧ .arguments ∉ top ∧ InCall env o below m ∧
      InCalls env m os below

namespace InCalls

/-- A mode that is not behind an argument can give way to others. -/
theorem replace {top : List Mode} (h : InCalls env m os (mode :: below)) (hm : mode ≠ .arguments)
    (ht : .arguments ∉ top) : InCalls env m os (top ++ below) := by
  cases os with
  | nil =>
    intro ha
    rcases List.mem_append.1 ha with ha | ha
    · exact ht ha
    · exact h (List.mem_cons_of_mem _ ha)
  | cons o os =>
    obtain ⟨front, under, he, hf, hin, hrest⟩ := h
    cases front with
    | nil => exact absurd (List.cons.inj he).1 hm
    | cons first front =>
      obtain ⟨rfl, rfl⟩ : mode = first ∧ below = front ++ .arguments :: under := List.cons.inj he
      refine ⟨top ++ front, under, (List.append_assoc top front _).symm, ?_, hin, hrest⟩
      intro ha
      rcases List.mem_append.1 ha with ha | ha
      · exact ht ha
      · exact hf (List.mem_cons_of_mem _ ha)

/-- A step leaves the calls open that it is not in the arguments of. -/
theorem step (h : InCalls env m os modes) (hm : m.Fitting)
    (hne : ∀ below, m.modes = .arguments :: below → modes.length ≤ below.length) (hs : m.step env = .ok n)
    (hr : m.rest = past ++ n.rest) : InCalls env n (os.map (·.hears past)) modes := by
  induction os generalizing modes with
  | nil => exact h
  | cons o os ih =>
    obtain ⟨top, below, rfl, ht, hin, hrest⟩ := h
    refine ⟨top, below, rfl, ht, hin.step hm ?_ hs hr, ih hrest ?_⟩
    · intro ha
      have hlength := hne below ha
      simp at hlength
      omega
    · intro under hu
      have hlength := hne under hu
      simp at hlength
      omega

end InCalls

end Machine

/-- What the scan of a text knows before a character of the mode of the reader there. -/
inductive CallScan.Knows (σ : CallScan) (c : Char) : Mode → Prop
  | other {mode : Mode} (hm : mode.isPlain = true ∨ mode = .arguments) : Knows σ c mode
  | begins {use : BareUse} (hc : isDelimiter c = false) (ht : σ.lexing.token.continues c = false) :
      Knows σ c (.bareName use [])
  | grows {use : BareUse} {read : List Char} (hne : read ≠ []) (hw : σ.word = read) (ht : σ.lexing.token = .name)
      (hd : σ.lexing.due = .suffix) : Knows σ c (.bareName use read)
  | whole {mode : Mode} (hn : mode.Names (String.ofList σ.word.reverse)) (hd : σ.lexing.due = .suffix)
      (ht : σ.lexing.token.continues c = false) : Knows σ c mode

theorem Mode.Names.not_plain {mode : Mode} {name : String} (h : mode.Names name) :
    ¬(mode.isPlain = true ∨ mode = .arguments) := by
  cases h <;> rintro (⟨⟨⟩⟩ | ⟨⟨⟩⟩)

theorem Mode.Names.unique {mode : Mode} {name other : String} (h : mode.Names name) (h' : mode.Names other) :
    name = other := by
  cases h <;> cases h' <;> rfl

theorem Mode.bareName_not_names (use : BareUse) (read : List Char) (name : String) :
    ¬(bareName use read).Names name := nofun

theorem Mode.bareName_not_plain {use : BareUse} (hu : use ≠ .member) (read : List Char) :
    ¬((bareName use read).isPlain = true ∨ bareName use read = .arguments) := by
  cases use with
  | member => exact absurd rfl hu
  | _ => rintro (⟨⟨⟩⟩ | ⟨⟨⟩⟩)

namespace Machine.NameStep

variable {m n : Machine} {env : Env} {below : List Mode} {mode : Mode} {σ : CallScan} {c d : Char}
  {rest : List Char}

/-- Before the character that a step leaves, the scan still knows what the reader holds. -/
theorem knows_kept (h : NameStep env m n below mode) (hk : σ.Knows c mode) (hr : m.rest = c :: rest)
    (hn : n.rest = m.rest) (ht : m.lexing.token = .none → σ.lexing.token.continues c = false)
    (hb : ∀ next ∈ below.head?, next.isPlain = true ∨ next = .arguments) :
    ∀ next ∈ n.modes.head?, σ.Knows c next := by
  have hshorter : ∀ {d : Char}, m.rest ≠ d :: n.rest := by
    intro d hd
    rw [hn] at hd
    simpa using congrArg List.length hd
  cases h with
  | plain hm => exact fun next hnext => .other (hm.head hb next hnext)
  | begins hm hr' _ hc htoken =>
    rw [hm]
    rintro _ ⟨⟩
    obtain ⟨rfl, -⟩ := List.cons.inj (hr.symm.trans hr')
    exact .begins hc (ht htoken)
  | ends hu hnames hm _ hc =>
    rw [hm]
    rintro _ ⟨⟩
    have hdelimiter : isDelimiter c = true := hc c (by rw [hr]; rfl)
    cases hk with
    | other hplain => exact absurd hplain (Mode.bareName_not_plain hu _)
    | begins hc' => rw [hdelimiter] at hc'; cases hc'
    | grows hne hw htoken hd =>
      rw [← hw] at hnames
      exact .whole hnames hd (by rw [htoken, PartToken.continues_name, hdelimiter, Bool.not_true])
    | whole hnames' => exact absurd hnames' (Mode.bareName_not_names _ _ _)
  | grows _ _ hr' | waits _ _ hr' | opens _ hr' => exact absurd hr' hshorter

/-- Behind the character that a step reads, the scan knows what the reader holds. -/
theorem knows_read (h : NameStep env m n below mode) (hk : σ.Knows c mode) (hr : m.rest = c :: n.rest)
    (hl : (σ.read c).lexing = n.lexing) (hb : ∀ next ∈ below.head?, next.isPlain = true ∨ next = .arguments) :
    ∀ next ∈ n.modes.head?, (σ.read c).Knows d next := by
  cases h with
  | plain hm => exact fun next hnext => .other (hm.head hb next hnext)
  | begins _ _ hn | ends _ _ _ hn =>
    rw [hr] at hn
    simpa using congrArg List.length hn
  | @grows use read c' hu hm hr' hc =>
    obtain ⟨rfl, -⟩ := List.cons.inj (hr.symm.trans hr')
    obtain ⟨bs, hlexing⟩ : ∃ bs, (σ.read c).lexing = ⟨.name, .suffix, bs⟩ :=
      ⟨_, by rw [hl, lexing, hm, lexingAt_bareName]⟩
    rw [hm]
    rintro _ ⟨⟩
    refine .grows (List.cons_ne_nil _ _) ?_ (by rw [hlexing]) (by rw [hlexing])
    cases hk with
    | other hplain => exact absurd hplain (Mode.bareName_not_plain hu _)
    | begins _ ht =>
      have hspace : ¬Text.isSpace c = true := by rw [Syntax.isSpace_of_isDelimiter hc]; exact Bool.false_ne_true
      rw [CallScan.read, if_neg (by rw [ht]; exact Bool.false_ne_true), if_neg hspace, CallScan.first_word]
    | grows _ hw ht =>
      rw [CallScan.read, if_pos (by rw [ht, PartToken.continues_name, hc, Bool.not_false]), hw]
    | whole hnames => exact absurd hnames (Mode.bareName_not_names _ _ _)
  | waits hn hm hr' hc =>
    obtain ⟨rfl, -⟩ := List.cons.inj (hr.symm.trans hr')
    rw [hm]
    rintro _ ⟨⟩
    cases hk with
    | other hplain => exact absurd hplain hn.not_plain
    | begins => cases hn
    | grows => cases hn
    | whole hnames hd ht =>
      have hread : σ.read c = ⟨σ.lexing.read c, σ.word, σ.opened.map (.hear c), σ.closed⟩ := by
        rw [CallScan.read, if_neg (by rw [ht]; exact Bool.false_ne_true), if_pos hc]
      have hrested : σ.lexing.read c = σ.lexing.rested := by
        rw [Lexing.read, if_neg (by rw [ht]; exact Bool.false_ne_true), if_pos hc]
      rw [hread, hrested]
      exact .whole hnames hd rfl
  | opens _ _ _ hm =>
    rw [hm]
    rintro _ ⟨⟩
    exact .other (.inl rfl)

/-- Only a parenthesis behind the name of a call opens arguments. -/
theorem exists_top (h : NameStep env m n below mode) (ho : ∀ name, mode.Names name → m.rest ≠ '(' :: n.rest) :
    ∃ top, n.modes = top ++ below ∧ .arguments ∉ top := by
  cases h with
  | plain hm => exact hm.eq_append
  | begins hm | grows _ hm => exact ⟨[_], hm, by simp⟩
  | ends _ hn hm | waits hn hm =>
    refine ⟨[_], hm, ?_⟩
    rintro (_ | ⟨_, ⟨⟩⟩)
    cases hn
  | opens hn hr => exact absurd hr (ho _ hn)

end Machine.NameStep

/-- What one reading of the text before a character has taken as it is, or further without the character. -/
def Lexing.LeadsTo (σ τ : Lexing) (c : Char) : Prop := σ = τ ∨ σ.Ended τ c

namespace Lexing.LeadsTo

variable {σ τ υ : Lexing} {c : Char}

theorem read_eq (h : σ.LeadsTo τ c) : τ.read c = σ.read c := by
  obtain rfl | h := h
  · rfl
  · exact h.reads

theorem ends (h : σ.LeadsTo τ c) (ht : τ.token.continues c = false) : σ.token.continues c = false := by
  obtain rfl | h := h
  · exact ht
  · exact h.ends

theorem continues (h : σ.LeadsTo τ c) (hc : c ∈ callSigns) (ht : τ.token.continues c = true) :
    σ.token.continues c = true := by
  obtain rfl | h := h
  · exact ht
  · rw [h.signs hc] at ht
    cases ht

theorem due (h : σ.LeadsTo τ c) (hd : τ.due ≠ .suffix) : σ.due ≠ .suffix := by
  obtain rfl | h := h
  · exact hd
  · exact fun hs => hd (h.suffix hs)

theorem trans_ended (h : σ.LeadsTo τ c) (h' : τ.Ended υ c) : σ.LeadsTo υ c := by
  obtain rfl | h := h
  · exact .inr h'
  · exact .inr (h.trans h')

end Lexing.LeadsTo

namespace Mode

theorem lexing_brackets (bs : List Bracket) (mode : Mode) : (mode.lexing bs).brackets = bs := by
  cases mode with
  | escape quote use read e => cases e <;> rfl
  | _ => rfl

end Mode

namespace Machine

variable {m n : Machine} {env : Env} {below : List Mode} {mode : Mode} {σ : CallScan} {c : Char}

theorem lexing_brackets (m : Machine) : m.lexing.brackets = Frame.brackets (frames m.roles) m.assembly.pending := by
  rw [lexing, lexingAt, roles]
  cases m.modes with
  | nil => rfl
  | cons mode below => exact Mode.lexing_brackets _ _

/-- Behind an argument a comma or a parenthesis is read. -/
theorem InStep.reads_sign (h : m.InStep) (hm : m.modes = .arguments :: below) (hs : m.step env = .ok n) :
    m.rest = ',' :: n.rest ∨ m.rest = ')' :: n.rest ∧ m.assembly.hasOpenGroup = false := by
  obtain ⟨c, rest, hr, hc⟩ := h.argument hm
  rw [step_cons hm, stepIn, hr] at hs
  obtain ⟨rfl, hg⟩ | ⟨rfl | rfl, -⟩ := hc
  · obtain ⟨a, -, rfl⟩ := attempt_goto_ok hs
    exact .inr ⟨hr, hg⟩
  · obtain ⟨a, -, rfl⟩ := attempt_goto_ok hs
    exact .inl hr
  · cases hs

/-- Only where a call is closed a node joins those of the query. -/
theorem callNodes_step (hm : m.modes = mode :: below) (hne : mode ≠ .arguments) (hs : m.step env = .ok n) :
    callGathering.assembly n.assembly = callGathering.assembly m.assembly := by
  obtain ⟨r, roles, act, next, hr, ht, htook⟩ := step_turns hs
  obtain ⟨rfl, hg⟩ | ⟨rfl, -⟩ | ⟨-, -, hg⟩ := callGathering.assembly_perform ht htook.performed
  · have hroot : callGathering.path [.root m.roots] = [] := by
      simp [callGathering, pathCallNodes_singleton, Selector.callNodes]
    rw [hg, hroot, List.append_nil]
  · have hrole : r = .arguments := by
      cases ht
      rfl
    rw [Machine.roles, hm] at hr
    exact absurd (mode_of_role.2.2 ((List.cons.inj hr).1.trans hrole)) hne
  · exact hg

/-- The scan of the text before a place goes side by side with the reader there. -/
structure Tracks (env : Env) (σ : CallScan) (m : Machine) : Prop where
  fitting : m.Fitting
  inStep : m.InStep
  stacked : m.rest ≠ [] → Stacked m.modes
  lexing : ∀ c ∈ m.rest.head?, σ.lexing.LeadsTo m.lexing c
  knows : ∀ c ∈ m.rest.head?, ∀ mode ∈ m.modes.head?, σ.Knows c mode
  opened : InCalls env m σ.opened m.modes
  closed : List.Forall₂ (WrittenCall.Compiles env) σ.closed (callGathering.assembly m.assembly)

namespace Tracks

theorem start (text : List Char) : Tracks env .start (start text) where
  fitting := fitting_start text
  inStep := inStep_start text
  stacked _ := ⟨trivial, fun _ => rfl, trivial⟩
  lexing _ _ := .inl rfl
  knows _ _ := by rintro _ ⟨⟩; exact .other (.inl rfl)
  opened := by simp [InCalls, CallScan.start, Machine.start]
  closed := .nil

/-- Where something is read next, the next mode below holds no name. -/
theorem below_plain (h : Tracks env σ m) (hm : m.modes = mode :: below) (hr : m.rest ≠ []) :
    ∀ next ∈ below.head?, next.isPlain = true ∨ next = .arguments := by
  have hstacked := h.stacked hr
  have hchained := h.inStep.chained
  rw [hm] at hstacked
  rw [roles, hm] at hchained
  exact Mode.plain_of_below hstacked hchained

theorem knows_mode (h : Tracks env σ m) (hm : m.modes = mode :: below) {rest : List Char} (hr : m.rest = c :: rest) :
    σ.Knows c mode := h.knows c (by rw [hr]; rfl) mode (by rw [hm]; rfl)

theorem leadsTo (h : Tracks env σ m) {rest : List Char} (hr : m.rest = c :: rest) : σ.lexing.LeadsTo m.lexing c :=
  h.lexing c (by rw [hr]; rfl)

/-- A step that is not behind an argument leaves the calls open, with what is read. -/
theorem opened_above (h : Tracks env σ m) (hm : m.modes = mode :: below) (hne : mode ≠ .arguments)
    (hs : m.step env = .ok n) {past : List Char} (hr : m.rest = past ++ n.rest) :
    InCalls env n (σ.opened.map (·.hears past)) (mode :: below) := by
  have hstep := h.opened.step h.fitting (fun _ ha => absurd (List.cons.inj (hm.symm.trans ha)).1 hne) hs hr
  rwa [hm] at hstep

/-- A step that reads nothing. -/
theorem step_kept (h : Tracks env σ m) (hs : m.step env = .ok n) (hn : n.rest = m.rest) : Tracks env σ n := by
  have hshorter : ∀ {d : Char}, m.rest ≠ d :: n.rest := by
    intro d hd
    rw [hn] at hd
    simpa using congrArg List.length hd
  obtain ⟨mode, below, hm⟩ := List.exists_cons_of_ne_nil (modes_ne_nil_of_step hs)
  have hne : mode ≠ .arguments := by
    rintro rfl
    obtain hr | ⟨hr, -⟩ := h.inStep.reads_sign hm hs <;> exact hshorter hr
  have hname := step_name hm hne hs
  obtain ⟨top, htop, ht⟩ := hname.exists_top fun _ _ => hshorter
  have hopened := h.opened_above hm hne hs (show m.rest = [] ++ n.rest from hn.symm)
  rw [OpenCall.map_hears_nil] at hopened
  have hlexes : ∀ {c : Char} {rest : List Char}, m.rest = c :: rest → Stacked n.modes ∧ m.lexing.Ended n.lexing c := by
    intro c rest hr
    obtain ⟨hstacked, ⟨hn', -⟩ | ⟨-, hended⟩⟩ := step_lexes (h.stacked (by simp [hr])) h.fitting.sound hr n hs
    · exact absurd (hr.trans (congrArg (c :: ·) hn'.symm)) hshorter
    · exact ⟨hstacked, hended⟩
  have hnext : ∀ {c : Char}, c ∈ n.rest.head? → ∃ rest, m.rest = c :: rest := by
    intro c hc
    rw [hn] at hc
    exact List.head?_eq_some_iff.1 hc
  refine ⟨fitting_step h.fitting hs, h.inStep.step hs, ?_, ?_, ?_, ?_, ?_⟩
  · intro hr
    obtain ⟨c, rest, hr⟩ := List.exists_cons_of_ne_nil (hn ▸ hr)
    exact (hlexes hr).1
  · intro c hc
    obtain ⟨rest, hr⟩ := hnext hc
    exact (h.leadsTo hr).trans_ended (hlexes hr).2
  · intro c hc
    obtain ⟨rest, hr⟩ := hnext hc
    refine hname.knows_kept (h.knows_mode hm hr) hr hn ?_ (h.below_plain hm (by simp [hr]))
    intro htoken
    exact (h.leadsTo hr).ends (by rw [htoken]; rfl)
  · rw [htop]
    exact hopened.replace hne ht
  · rw [callNodes_step hm hne hs]
    exact h.closed

/-- Where a parenthesis does not open a call and a comma or a parenthesis does not belong to the innermost one, the scan
only hears it. -/
theorem hears (h : Tracks env σ m) (hm : m.modes = mode :: below) (hne : mode ≠ .arguments) (hs : m.step env = .ok n)
    (hr : m.rest = c :: n.rest) (ho : ∀ name, mode.Names name → c ≠ '(')
    (hin : InCalls env n (σ.opened.map (·.hears [c])) n.modes) (hl : n.lexing = σ.lexing.read c) :
    (σ.read c).opened = σ.opened.map (·.hears [c]) ∧ (σ.read c).closed = σ.closed := by
  have hlead := h.leadsTo hr
  apply CallScan.read_hears
  by_cases htoken : σ.lexing.token.continues c = true
  · exact .inl htoken
  refine .inr (.inr ⟨?_, ?_⟩)
  · rintro rfl
    obtain hcontinues | ⟨-, rfl | ⟨name, hname⟩⟩ | ⟨hcomma, -⟩ := step_sign (.inl rfl) hm hr hs rfl
    · exact absurd (hlead.continues (by decide) hcontinues) htoken
    · refine hlead.due ?_
      rw [Machine.lexing, hm]
      rintro ⟨⟩
    · exact absurd rfl (ho name hname)
    · cases hcomma
  · intro o hmem
    obtain ⟨others, hopened⟩ := List.head?_eq_some_iff.1 hmem
    rw [hopened] at hin
    obtain ⟨top, under, -, -, hcall, -⟩ := hin
    obtain ⟨bs, rest, hbrackets, hlength⟩ := hcall.brackets (fitting_step h.fitting hs)
    rw [← hl, lexing_brackets]
    refine ⟨?_, ?_⟩
    · rintro rfl
      obtain hcontinues | ⟨hparenthesis, -⟩ | ⟨-, hmode | hmodes⟩ := step_sign (.inr rfl) hm hr hs rfl
      · exact absurd (hlead.continues (by decide) hcontinues) htoken
      · cases hparenthesis
      · exact absurd hmode hne
      · -- the bracket of the list is open above that of the call
        rw [roles, hmodes] at hbrackets
        cases bs with
        | nil => cases hbrackets
        | cons b bs =>
          rw [roles, hmodes, hbrackets, ← show rest.length = o.around from hlength]
          simp
          omega
    · rintro rfl
      rw [hbrackets, ← show rest.length = o.around from hlength]
      simp
      omega

/-- Behind a character the scan and the reader have come to the same token. -/
theorem read_lexes (h : Tracks env σ m) (hs : m.step env = .ok n) (hr : m.rest = c :: n.rest) :
    Stacked n.modes ∧ n.lexing = σ.lexing.read c := by
  obtain ⟨hstacked, ⟨-, hl⟩ | ⟨hn, -⟩⟩ := step_lexes (h.stacked (by simp [hr])) h.fitting.sound hr n hs
  · exact ⟨hstacked, hl.trans (h.leadsTo hr).read_eq⟩
  · simpa using congrArg List.length hn

theorem of_read (h : Tracks env σ m) (hs : m.step env = .ok n) (hr : m.rest = c :: n.rest)
    (hk : ∀ d, ∀ next ∈ n.modes.head?, (σ.read c).Knows d next) (ho : InCalls env n (σ.read c).opened n.modes)
    (hc : List.Forall₂ (WrittenCall.Compiles env) (σ.read c).closed (callGathering.assembly n.assembly)) :
    Tracks env (σ.read c) n where
  fitting := fitting_step h.fitting hs
  inStep := h.inStep.step hs
  stacked _ := (h.read_lexes hs hr).1
  lexing _ _ := .inl ((CallScan.read_lexing σ c).trans (h.read_lexes hs hr).2.symm)
  knows d _ := hk d
  opened := ho
  closed := hc

/-- A parenthesis behind the name of a call opens the call. -/
theorem step_opens (h : Tracks env σ m) (hm : m.modes = mode :: below) {name : String} (hn : mode.Names name)
    (hs : m.step env = .ok n) (hr : m.rest = '(' :: n.rest) : Tracks env (σ.read '(') n := by
  have hne : mode ≠ .arguments := fun ha => hn.not_plain (.inr ha)
  have hshorter : ∀ {text : List Char}, text ≠ '(' :: text := fun h => by simpa using congrArg List.length h
  obtain ⟨hd, ht, hword⟩ : σ.lexing.due = .suffix ∧ σ.lexing.token.continues '(' = false ∧
      name = String.ofList σ.word.reverse := by
    cases h.knows_mode hm hr with
    | other hplain => exact absurd hplain hn.not_plain
    | begins | grows => cases hn
    | whole hnames hd ht => exact ⟨hd, ht, hn.unique hnames⟩
  have hbrackets : σ.lexing.brackets = m.lexing.brackets := by
    have hread : m.lexing.read '(' = ⟨.none, .operand, .round :: m.lexing.brackets⟩ := by
      rw [Machine.lexing, hm]
      cases hn <;> exact Lexing.read_open rfl rfl
    rw [(h.leadsTo hr).read_eq, Lexing.read_open ht hd] at hread
    injection hread with _ _ hread
    exact (List.cons.inj hread).2
  have hname := step_name hm hne hs
  have hk : ∀ d, ∀ next ∈ n.modes.head?, (σ.read '(').Knows d next := fun d =>
    hname.knows_read (h.knows_mode hm hr) hr ((CallScan.read_lexing σ '(').trans (h.read_lexes hs hr).2.symm)
      (h.below_plain hm (by simp [hr]))
  obtain ⟨hopened, hclosed⟩ := CallScan.read_open ht hd
  refine h.of_read hs hr hk ?_ ?_
  · cases hname with
    | plain _ ho => exact absurd (by rw [hr]; rfl) (ho name hn)
    | begins _ _ hn' | ends _ _ _ hn' => exact absurd (hn'.trans hr) hshorter
    | grows => cases hn
    | waits _ _ hr' hc =>
      obtain ⟨rfl, -⟩ := List.cons.inj (hr.symm.trans hr')
      cases hc
    | @opens _ _ g around hn' _ hg hmodes ha hb =>
      have hin := InCall.opens h.fitting hm hn' hg hmodes ha hb
      rw [hn'.unique hn, hword, ← lexing_brackets, ← hbrackets] at hin
      rw [hopened, hmodes]
      refine ⟨[.firstArgument], around ++ below, rfl, by simp, hin, ?_⟩
      exact (h.opened_above hm hne hs hr).replace hne (by obtain rfl | rfl := ha <;> simp)
  · rw [hclosed, callNodes_step hm hne hs]
    exact h.closed

/-- A character that is read elsewhere is only heard. -/
theorem step_hears (h : Tracks env σ m) (hm : m.modes = mode :: below) (hne : mode ≠ .arguments)
    (hs : m.step env = .ok n) (hr : m.rest = c :: n.rest) (ho : ∀ name, mode.Names name → c ≠ '(') :
    Tracks env (σ.read c) n := by
  have hname := step_name hm hne hs
  obtain ⟨top, htop, ht⟩ := hname.exists_top fun name hn hr' => ho name hn (List.cons.inj (hr.symm.trans hr')).1
  have hin : InCalls env n (σ.opened.map (·.hears [c])) n.modes := by
    rw [htop]
    exact (h.opened_above hm hne hs (show m.rest = [c] ++ n.rest from hr)).replace hne ht
  have hl := (h.read_lexes hs hr).2
  obtain ⟨hopened, hclosed⟩ := h.hears hm hne hs hr ho hin hl
  refine h.of_read hs hr (fun d => ?_) (hopened ▸ hin) ?_
  · exact hname.knows_read (h.knows_mode hm hr) hr ((CallScan.read_lexing σ c).trans hl.symm)
      (h.below_plain hm (by simp [hr]))
  · rw [hclosed, callNodes_step hm hne hs]
    exact h.closed

/-- Behind an argument a comma or a parenthesis belongs to the innermost call that is open. -/
theorem opened_arguments (h : Tracks env σ m) (hm : m.modes = .arguments :: below) (hs : m.step env = .ok n)
    (hr : m.rest = c :: n.rest) : ∃ o others, σ.opened = o :: others ∧ InCall env o below m ∧
      InCalls env n (others.map (·.hears [c])) below := by
  have hin := h.opened
  rw [hm] at hin
  cases ho : σ.opened with
  | nil =>
    rw [ho] at hin
    exact absurd List.mem_cons_self hin
  | cons o others =>
    rw [ho] at hin
    obtain ⟨top, under, he, ht, hcall, hrest⟩ := hin
    obtain ⟨rfl, rfl⟩ : top = [] ∧ below = under := by
      cases top with
      | nil => exact ⟨rfl, (List.cons.inj he).2⟩
      | cons mode top => exact absurd ((List.cons.inj he).1 ▸ List.mem_cons_self) ht
    refine ⟨o, others, rfl, hcall, hrest.step h.fitting ?_ hs (show m.rest = [c] ++ n.rest from hr)⟩
    intro under hu
    rw [(List.cons.inj (hm.symm.trans hu)).2]

/-- Behind an argument the scan and the reader go to the next argument, or close the call. -/
theorem step_arguments (h : Tracks env σ m) (hm : m.modes = .arguments :: below) (hs : m.step env = .ok n)
    (hr : m.rest = c :: n.rest) : Tracks env (σ.read c) n := by
  have hl := (h.read_lexes hs hr).2
  have hends : m.lexing.token.continues c = false → σ.lexing.token.continues c = false := (h.leadsTo hr).ends
  have htoken : σ.lexing.token.continues c = false := hends (by rw [Machine.lexing, hm]; rfl)
  obtain ⟨o, others, ho, hcall, hothers⟩ := h.opened_arguments hm hs hr
  obtain hr' | ⟨hr', hg⟩ := h.inStep.reads_sign hm hs
  · obtain ⟨rfl, -⟩ := List.cons.inj (hr.symm.trans hr')
    obtain ⟨hmodes, hnext, hbrackets, hgather⟩ := hcall.next hm hr' hs
    obtain ⟨hopened, hclosed⟩ := CallScan.read_comma htoken ho (by rw [← hl, lexing_brackets, hbrackets])
    refine h.of_read hs hr ?_ ?_ ?_
    · rw [hmodes]
      rintro d _ ⟨⟩
      exact .other (.inl rfl)
    · rw [hopened, hmodes]
      exact ⟨[.operand, .operator], below, rfl, by simp, hnext, hothers⟩
    · rw [hclosed, hgather]
      exact h.closed
  · obtain ⟨rfl, -⟩ := List.cons.inj (hr.symm.trans hr')
    obtain ⟨hmodes, hbrackets, node, hnode, hgather⟩ := hcall.close hm hg hr' hs
    obtain ⟨hopened, hclosed⟩ := CallScan.read_close htoken ho (by rw [← hl, lexing_brackets, hbrackets])
    refine h.of_read hs hr ?_ ?_ ?_
    · rw [hmodes]
      exact fun d next hnext => .other (h.below_plain hm (by simp [hr]) next hnext)
    · rw [hopened, hmodes]
      exact hothers
    · rw [hclosed, hgather]
      exact List.rel_append h.closed (.cons hnode .nil)

theorem step (h : Tracks env σ m) (hs : m.step env = .ok n) :
    ∃ past, m.rest = past ++ n.rest ∧ Tracks env (past.foldl CallScan.read σ) n := by
  obtain hr | ⟨c, hr⟩ := rest_of_step hs
  · exact ⟨[], hr.symm, h.step_kept hs hr⟩
  refine ⟨[c], hr, ?_⟩
  show Tracks env (σ.read c) n
  obtain ⟨mode, below, hm⟩ := List.exists_cons_of_ne_nil (modes_ne_nil_of_step hs)
  by_cases ha : mode = .arguments
  · subst ha
    exact h.step_arguments hm hs hr
  by_cases ho : c = '(' ∧ ∃ name, mode.Names name
  · obtain ⟨rfl, name, hn⟩ := ho
    exact h.step_opens hm hn hs hr
  · exact h.step_hears hm ha hs hr fun name hn hc => ho ⟨hc, name, hn⟩

theorem reaches (h : Tracks env σ m) (hn : Reaches env m n) :
    ∃ past, m.rest = past ++ n.rest ∧ Tracks env (past.foldl CallScan.read σ) n := by
  induction hn generalizing σ with
  | refl m => exact ⟨[], rfl, h⟩
  | step hs _ ih =>
    obtain ⟨past, hr, hk⟩ := h.step hs
    obtain ⟨later, hr', hn⟩ := ih hk
    refine ⟨past ++ later, by rw [hr, hr', List.append_assoc], ?_⟩
    rw [List.foldl_append]
    exact hn

end Tracks

end Machine

/-- The calls of a compiled query are those that are written in its text, in the order of their closing parentheses. -/
theorem Program.ofText_calls {env : Env} {text : String} {p : Program} (h : ofText env text = .ok p) :
    List.Forall₂ (WrittenCall.Compiles env) (writtenCalls text) p.callNodes := by
  obtain ⟨n, hn, hfin, hp⟩ := Machine.exists_reaches h
  obtain ⟨past, hr, ht⟩ := (Machine.Tracks.start text.toList).reaches hn
  have hpast : text.toList = past := by
    rw [(Machine.isFinished_iff.1 hfin).1, List.append_nil] at hr
    exact hr
  have hnodes : p.callNodes = callGathering.assembly n.assembly := callGathering.program_finish hp
  rw [writtenCalls, hpast, hnodes]
  exact ht.closed

end PathQuery
