import PathQuery.Proofs.Query.Phases
import PathQuery.Proofs.Query.Refusals
import PathQuery.Standard

namespace PathQuery

open Role

namespace Turn

variable {r : Role} {act : Act} {next below rest : List Role} {a : Assembly}

/-- The end of the arguments is found only behind an argument, or where there is none. -/
theorem before_arguments (ht : Turn r act next) (hc : Chained (r :: below)) (h : next ++ below = .arguments :: rest) :
    r = .operator ∨ r = .firstArgument ∨ r = .arguments := by
  cases next with
  | cons s next =>
    obtain ⟨rfl, -⟩ := List.cons.inj h
    cases ht
    exact .inr (.inr rfl)
  | nil =>
    rw [List.nil_append] at h
    subst h
    have hg : r.leaves.gives .argument = true := (List.isChain_cons_cons.1 hc).1
    cases ht <;> simp_all [leaves, Phase.gives]

/-- Behind a turn, what the innermost role needs has been read. -/
theorem phase_needs (hc : Chained (r :: below)) (h : (r.after next).In (frames (next ++ below)) a) {s : Role}
    (hs : next ++ below = s :: rest) : s.needs.In (frames (s :: rest)) a := by
  rw [← hs]
  cases next with
  | cons t next =>
    obtain ⟨rfl, -⟩ := List.cons.inj hs
    exact h
  | nil =>
    rw [List.nil_append] at hs
    subst hs
    exact h.of_gives (List.isChain_cons_cons.1 hc).1

end Turn

namespace Machine

variable {m n : Machine} {env : Env} {below others : List Mode}

/-- An argument, or the parenthesis behind the name of a call, comes before the next character. -/
def EndsArgument (m : Machine) : Prop :=
  ∃ c rest, m.rest = c :: rest ∧ (c = ')' ∧ m.assembly.hasOpenGroup = false ∨
    (c = ',' ∨ c = ']') ∧ ∃ i, m.assembly.items.head? = some (.instr i))

/-- The modes and the assembly are in step. -/
structure InStep (m : Machine) : Prop where
  sound : Sound m.roles
  chained : Chained m.roles
  phase : ∀ {r below}, m.roles = r :: below → r.needs.In (frames (r :: below)) m.assembly
  argument : ∀ {below}, m.modes = .arguments :: below → m.EndsArgument

theorem inStep_start (text : List Char) : (start text).InStep := by
  refine ⟨⟨rfl, trivial⟩, .singleton _, ?_, ?_⟩
  · rintro r below ⟨⟩
    exact Inside.empty
  · rintro below ⟨⟩

theorem mode_of_role {mode : Mode} :
    (mode.role = .operator → mode = .operator) ∧ (mode.role = .firstArgument → mode = .firstArgument) ∧
      (mode.role = .arguments → mode = .arguments) := by
  cases mode with
  | bareName use read => cases use <;> simp [Mode.role]
  | quoted quote use read => cases use <;> simp [Mode.role]
  | escape quote use read e => cases use <;> simp [Mode.role]
  | _ => simp [Mode.role]

theorem modes_of_roles {r : Role} {roles : List Role} (h : m.roles = r :: roles) :
    ∃ mode below, m.modes = mode :: below ∧ mode.role = r ∧ Mode.roles below = roles := by
  rw [Machine.roles, Mode.roles] at h
  obtain ⟨mode, below, hm, hr, hb⟩ := List.map_eq_cons_iff.1 h
  exact ⟨mode, below, hm, hr, hb⟩

theorem attempt_modes {f : Assembly → Except SyntaxFault Assembly} (h : m.attempt f = .ok n) : n.modes = m.modes := by
  obtain ⟨a, -, rfl⟩ := attempt_eq_ok h
  rfl

/-- Where an expression ends an argument, the next character shows it. -/
theorem operator_ends (hm : m.modes = .operator :: below) (h : m.step env = .ok n)
    (hn : n.modes = .arguments :: others) :
    n = m.goto below ∧ ∃ c rest, m.rest = c :: rest ∧
      (c = ')' ∧ m.assembly.hasOpenGroup = false ∨ c = ',' ∨ c = ']') := by
  have hread : m.readOperator below m.rest = .ok n := by
    rw [step, hm] at h
    exact h
  cases hr : m.rest with
  | nil =>
    rw [hr] at hread
    cases hread
  | cons c rest =>
    rw [hr, readOperator] at hread
    split_ifs at hread with hspace hdot hlist hclose hopen hcall hend
    · cases hread
      have hstay : m.modes = .arguments :: others := hn
      rw [hm] at hstay
      cases hstay
    · cases hread
      cases hn
    · cases hread
      cases hn
    · have hstay := attempt_modes hread
      rw [hn] at hstay
      exact absurd (hstay.trans hm) (by simp)
    · cases hread
      exact ⟨rfl, c, rest, rfl, .inl ⟨hclose, by simpa using hopen⟩⟩
    · cases hread
    · cases hread
      exact ⟨rfl, c, rest, rfl, .inr (by simpa using hend)⟩
    · split at hread
      · cases hread
        cases hn
      · next modes ho =>
        cases hread
        have hroles : Mode.roles (modes ++ .operator :: below) = .arguments :: Mode.roles others :=
          congrArg Mode.roles hn
        rw [Mode.roles, List.map_append, ← Mode.roles] at hroles
        obtain hh | hh := operatorStart?_half ho <;> rw [hh] at hroles <;> cases hroles
      · cases hread

theorem firstArgument_ends (hm : m.modes = .firstArgument :: below) (h : m.step env = .ok n)
    (hn : n.modes = .arguments :: others) : n = m.goto below ∧ ∃ rest, m.rest = ')' :: rest := by
  have hread : m.readFirstArgument below m.rest = .ok n := by
    rw [step, hm] at h
    exact h
  cases hr : m.rest with
  | nil =>
    rw [hr] at hread
    cases hread
  | cons c rest =>
    rw [hr, readFirstArgument] at hread
    split_ifs at hread with hspace hclose
    · cases hread
      have hstay : m.modes = .arguments :: others := hn
      rw [hm] at hstay
      cases hstay
    · cases hread
      exact ⟨rfl, rest, by rw [hclose]⟩
    · cases hread
      cases hn

namespace InStep

/-- Behind an argument that something follows, or that is the last. -/
theorem closeArgument (hm : m.InStep) (h : m.modes = .arguments :: below)
    (hi : ∃ i, m.assembly.items.head? = some (.instr i)) :
    ∃ result, Closing m.assembly .closeArgument result ∧
      ∀ b, result = .ok b → Phase.fresh.In (.call :: frames (Mode.roles below)) b := by
  have hr : m.roles = .arguments :: Mode.roles below := by rw [Machine.roles, h]; rfl
  obtain ⟨b, items, pending, hb, hc, he⟩ := hm.phase hr
  obtain ⟨rfl, rfl⟩ | hc := hc
  · -- behind a mark there is no argument
    obtain ⟨i, hi⟩ := hi
    have hhead : b.items.head? = some (.instr i) := by
      rw [he] at hi
      exact hi
    obtain ⟨mark, hmark⟩ := hb.items _ hhead
    cases hmark
  · exact Inside.closeArgument ⟨b, items, pending, hb, hc, he⟩

theorem closeCall (hm : m.InStep) (h : m.modes = .arguments :: below) (ho : m.assembly.hasOpenGroup = false) :
    Closes (frames (Mode.roles below)) m.assembly .closeCall := by
  have hr : m.roles = .arguments :: Mode.roles below := by rw [Machine.roles, h]; rfl
  obtain ⟨b, items, pending, hb, hc, he⟩ := hm.phase hr
  obtain hc | hc := hc
  · exact Inside.closeCall (.inl ⟨b, items, pending, hb, hc, he⟩)
  · exact Inside.closeCall (.inr ⟨⟨b, items, pending, hb, hc, he⟩, ho⟩)

/-- Behind the arguments, a step goes on with the next or closes the call. -/
theorem step_arguments (hm : m.InStep) (h : m.modes = .arguments :: below) (hn : m.step env = .ok n) :
    (n.modes = .operand :: .operator :: m.modes ∧ Phase.fresh.In (.call :: frames (Mode.roles below)) n.assembly) ∨
      (n.modes = below ∧ Phase.complete.In (frames (Mode.roles below)) n.assembly) := by
  obtain ⟨c, rest, hrest, hc⟩ := hm.argument h
  have hread : m.readArguments below (c :: rest) = .ok n := by
    rw [step, h] at hn
    rw [← hrest]
    exact hn
  obtain ⟨rfl, ho⟩ | ⟨rfl | rfl, hi⟩ := hc
  · obtain ⟨b, hb, rfl⟩ := attempt_goto_ok hread
    obtain ⟨result, hclosing, hresult⟩ := hm.closeCall h ho
    exact .inr ⟨rfl, hresult _ ((hclosing.perform 0).symm.trans hb)⟩
  · obtain ⟨b, hb, rfl⟩ := attempt_goto_ok hread
    obtain ⟨result, hclosing, hresult⟩ := hm.closeArgument h hi
    refine .inl ⟨?_, hresult _ ((hclosing.perform 0).symm.trans hb)⟩
    rw [h]
  · cases hread

theorem step_phase (hm : m.InStep) (hn : m.step env = .ok n) {s : Role} {rest : List Role} (hs : n.roles = s :: rest) :
    s.needs.In (frames (s :: rest)) n.assembly := by
  obtain ⟨r, below, act, next, hr, ht, htook⟩ := step_turns hn
  have hsound := hm.sound
  have hc := hm.chained
  rw [hr] at hsound hc
  by_cases hra : r = .arguments
  · subst hra
    obtain ⟨mode, modes, hmodes, hrole, rfl⟩ := modes_of_roles hr
    obtain rfl := mode_of_role.2.2 hrole
    obtain ⟨hnext, hphase⟩ | ⟨hnext, hphase⟩ := hm.step_arguments hmodes hn
    · rw [Machine.roles, hnext] at hs
      cases hs
      rw [hmodes]
      exact hphase
    · rw [Machine.roles, hnext] at hs
      rw [hs] at hc hphase
      exact hphase.of_gives (List.isChain_cons_cons.1 hc).1
  · rw [htook.roles_eq] at hs
    exact Turn.phase_needs hc (ht.phase hra hsound.1 (hm.phase hr) htook.performed) hs

theorem step_argument (hm : m.InStep) (hn : m.step env = .ok n) (h : n.modes = .arguments :: others) :
    n.EndsArgument := by
  obtain ⟨r, below, act, next, hr, ht, htook⟩ := step_turns hn
  have hsound := hm.sound
  have hc := hm.chained
  rw [hr] at hsound hc
  have hphase := hm.phase hr
  have hroles : next ++ below = .arguments :: Mode.roles others := by
    rw [← htook.roles_eq, Machine.roles, h]
    rfl
  obtain ⟨mode, modes, hmodes, hrole, rfl⟩ := modes_of_roles hr
  obtain rfl | rfl | rfl := ht.before_arguments hc hroles
  · obtain rfl := mode_of_role.1 hrole
    obtain ⟨rfl, c, rest, hrest, hends⟩ := operator_ends hmodes hn h
    refine ⟨c, rest, hrest, ?_⟩
    obtain ho | hend := hends
    · exact .inl ho
    · obtain ⟨frame, outer, hframes, hne⟩ := hsound.1
      have hin : Phase.complete.In (frame :: outer) m.assembly := hframes ▸ hphase
      exact .inr ⟨hend, Inside.head?_instr hne hin⟩
  · obtain rfl := mode_of_role.2.1 hrole
    obtain ⟨rfl, rest, hrest⟩ := firstArgument_ends hmodes hn h
    obtain ⟨frame, outer, hframes, hne⟩ := hsound.1
    have hin : Phase.bare.In (frame :: outer) m.assembly := hframes ▸ hphase
    exact ⟨')', rest, hrest, .inl ⟨rfl, Inside.hasOpenGroup_bare hne hin⟩⟩
  · obtain rfl := mode_of_role.2.2 hrole
    obtain ⟨hnext, -⟩ | ⟨hnext, -⟩ := hm.step_arguments hmodes hn
    · rw [hnext] at h
      cases h
    · rw [hnext] at h
      rw [h] at hc
      cases (List.isChain_cons_cons.1 hc).1

/-- A step leaves the modes and the assembly in step. -/
theorem step (hm : m.InStep) (hn : m.step env = .ok n) : n.InStep := by
  obtain ⟨r, below, act, next, hr, ht, htook⟩ := step_turns hn
  have hs := hm.sound
  have hc := hm.chained
  rw [hr] at hs hc
  refine ⟨?_, ?_, hm.step_phase hn, hm.step_argument hn⟩
  · rw [htook.roles_eq]
    exact ht.sound hs
  · rw [htook.roles_eq]
    exact ht.chained hc

/-- When a step closes something, it is there to be closed. -/
theorem closing (hm : m.InStep) {act : Act} (h : m.closer? = some act) : ∃ result, Closing m.assembly act result := by
  obtain ⟨below, c, rest, hr, hcases⟩ := closer?_cases h
  have hphase : ∀ {mode}, m.modes = mode :: below →
      mode.role.needs.In (frames (mode.role :: Mode.roles below)) m.assembly := by
    intro mode hmode
    apply hm.phase
    rw [Machine.roles, hmode]
    rfl
  obtain ⟨hmode, rfl, hg, rfl⟩ | ⟨hmode, rfl, rfl⟩ | ⟨hmode, hc, rfl⟩ | ⟨hmode, hc, rfl⟩ | ⟨hmode, rfl, rfl⟩ |
    ⟨hmode, rfl, rfl⟩ := hcases
  · obtain ⟨b, hb⟩ := Assembly.closeGroup_of_open hg
    exact ⟨_, .group hg hb⟩
  · obtain ⟨result, hclosing, -⟩ := Inside.closeUnion (hphase hmode)
    exact ⟨result, hclosing⟩
  · obtain ⟨result, hclosing, -⟩ := Inside.closeFilter (hphase hmode)
    exact ⟨result, hclosing⟩
  · obtain ⟨result, hclosing, -⟩ := Inside.closeComputed (hphase hmode)
    exact ⟨result, hclosing⟩
  · obtain ⟨d, rest', hrest, hends⟩ := hm.argument hmode
    rw [hr] at hrest
    cases hrest
    obtain ⟨hd, -⟩ | ⟨-, hi⟩ := hends
    · exact absurd hd (by decide)
    · obtain ⟨result, hclosing, -⟩ := hm.closeArgument hmode hi
      exact ⟨result, hclosing⟩
  · obtain ⟨d, rest', hrest, hends⟩ := hm.argument hmode
    rw [hr] at hrest
    cases hrest
    obtain ⟨-, ho⟩ | ⟨hd, -⟩ := hends
    · obtain ⟨result, hclosing, -⟩ := hm.closeCall hmode ho
      exact ⟨result, hclosing⟩
    · exact absurd hd (by decide)

/-- At the end of a query its path is complete. -/
theorem complete (hm : m.InStep) (h : m.isFinished = true) : Phase.complete.In [] m.assembly :=
  hm.phase (roles_of_isFinished h)

/-- A query that has been read to its end has a program. -/
theorem finish (hm : m.InStep) (h : m.isFinished = true) : ∃ p, m.assembly.finish = .ok p :=
  Inside.finish (hm.complete h)

end InStep

theorem Reaches.inStep (h : Reaches env m n) (hm : m.InStep) : n.InStep := h.keeps InStep.step hm

/-- Only a step makes a run fail. -/
theorem run_error (hm : m.InStep) {e : SyntaxError} (h : m.run env = .error e) :
    ∃ n, Reaches env m n ∧ n.step env = .error e := by
  induction m using Machine.run.induct env with
  | case1 m hf =>
    obtain ⟨p, hp⟩ := hm.finish hf
    rw [Machine.run, if_pos hf, hp] at h
    cases h
  | case2 m hf e' he =>
    rw [Machine.run, if_neg hf] at h
    split at h
    · next e'' he'' =>
      rw [he''] at he
      cases h
      exact ⟨m, .refl m, he''⟩
    · next k hk => simp [he] at hk
  | case3 m hf k hk ih =>
    rw [run_of_step hk] at h
    obtain ⟨n, hn, he⟩ := ih (hm.step hk) h
    exact ⟨n, .step hk hn, he⟩

/-- The end of a step that closes something, and of one that does not. -/
theorem InStep.step_error (hm : m.InStep) {e : SyntaxError} (h : m.step env = .error e) :
    e.fault ≠ .unbalancedBraces := by
  cases hc : m.closer? with
  | none =>
    have hin : e.fault.inText = true := (step_alike (b := m.assembly) hc rfl e h).2
    intro hf
    rw [hf] at hin
    cases hin
  | some act =>
    obtain ⟨result, hclosing⟩ := hm.closing hc
    obtain ⟨position, hp⟩ := @step_closer m env act hc
    rw [hclosing.perform, h] at hp
    cases hclosing with
    | openFilter | openComputed | openArgument | arity =>
      cases hp
      simp
    | _ => cases hp

end Machine

/-- The modes and the assembly never get out of step. -/
theorem Program.ofText_in_step (env : Env) (s : String) :
    (∀ e, Program.ofText env s = .error e →
      e.fault ≠ .unbalancedBraces ∧ ∃ m, Machine.Reaches env (.start s.toList) m ∧ m.step env = .error e) ∧
    ∀ m, Machine.Reaches env (.start s.toList) m →
      (∀ act, m.closer? = some act → ∃ result position, Closing m.assembly act result ∧
        (m.step env).map (·.assembly) = result.mapError (⟨·, position⟩)) ∧
      (m.closer? = none → ∀ e, m.step env = .error e → e.fault ≠ .unbalancedBraces ∧ e.fault ≠ .wrongArity ∧
        ∀ b : Assembly, b.hasOpenGroup = m.assembly.hasOpenGroup → (m.withAssembly b).step env = .error e) ∧
      (m.isFinished = true → ∃ p, m.assembly.finish = .ok p ∧ Program.ofText env s = .ok p) := by
  have hstart := Machine.inStep_start s.toList
  refine ⟨?_, ?_⟩
  · intro e he
    obtain ⟨m, hm, herror⟩ := Machine.run_error hstart he
    exact ⟨(hm.inStep hstart).step_error herror, m, hm, herror⟩
  · intro m hreach
    have hm := hreach.inStep hstart
    refine ⟨?_, ?_, ?_⟩
    · intro act hact
      obtain ⟨result, hclosing⟩ := hm.closing hact
      obtain ⟨position, hp⟩ := @Machine.step_closer m env act hact
      rw [hclosing.perform] at hp
      exact ⟨result, position, hclosing, hp⟩
    · intro hnone e he
      have hin : e.fault.inText = true := (Machine.step_alike (b := m.assembly) hnone rfl e he).2
      refine ⟨?_, ?_, fun b hb => (Machine.step_alike hnone hb e he).1⟩
      · intro hf
        rw [hf] at hin
        cases hin
      · intro hf
        rw [hf] at hin
        cases hin
    · intro hf
      obtain ⟨p, hp⟩ := hm.finish hf
      refine ⟨p, hp, ?_⟩
      rw [Program.ofText, hreach.run, Machine.run, if_pos hf, hp]
      rfl

/-- In a filter, a parenthesis that is still open at the closing bracket. -/
theorem Program.ofText_in_step_open_parenthesis :
    ∃ m, Machine.Reaches (.standard []) (.start "$[?(@]".toList) m ∧ m.closer? = some .closeFilter ∧
      ∃ result position, Closing m.assembly .closeFilter result ∧
        (m.step (.standard [])).map (·.assembly) = result.mapError (⟨·, position⟩) := by
  have hreach : Machine.Reaches (.standard []) (.start "$[?(@]".toList) _ :=
    .step rfl (.step rfl (.step rfl (.step rfl (.step rfl (.step rfl (.refl _))))))
  exact ⟨_, hreach, rfl, ((ofText_in_step (.standard []) "$[?(@]").2 _ hreach).1 _ rfl⟩

end PathQuery
