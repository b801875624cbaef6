import PathQuery.Proofs.Query.InStep

namespace PathQuery

theorem Mode.ranks_eq_foldr (modes : List Mode) : ranks modes = (modes.map rank).foldr (· + ·) 0 := by
  induction modes with
  | nil => rfl
  | cons mode modes ih => rw [ranks_cons, ih, List.map_cons, List.foldr_cons]

namespace Machine

variable {env : Env} {m n o : Machine} {i j : Nat}

/-- One machine leads to another in so many steps. -/
inductive StepsTo (env : Env) : Nat → Machine → Machine → Prop
  | none (m : Machine) : StepsTo env 0 m m
  | more {k : Nat} {m n o : Machine} (h : m.step env = .ok n) (hn : StepsTo env k n o) : StepsTo env (k + 1) m o

theorem StepsTo.reaches (h : StepsTo env i m n) : Reaches env m n := by
  induction h with
  | none m => exact .refl m
  | more h _ ih => exact .step h ih

theorem Reaches.exists_stepsTo (h : Reaches env m n) : ∃ k, StepsTo env k m n := by
  induction h with
  | refl m => exact ⟨0, .none m⟩
  | step h _ ih =>
    obtain ⟨k, hk⟩ := ih
    exact ⟨k + 1, .more h hk⟩

/-- Each step is paid for by weight. -/
theorem StepsTo.weight_le (h : StepsTo env i m n) : i + n.weight ≤ m.weight := by
  induction h with
  | none m => omega
  | @more k m n o h _ ih =>
    have hlower : n.weight < m.weight := step_lowers m env n h
    omega

/-- No run goes on behind a step that fails. -/
theorem StepsTo.le_of_error (h : StepsTo env i m n) {e : SyntaxError} (he : n.step env = .error e)
    (ho : StepsTo env j m o) : j ≤ i := by
  induction h generalizing j with
  | none m =>
    cases ho with
    | none => exact Nat.le_refl 0
    | more h _ =>
      rw [he] at h
      cases h
  | more h _ ih =>
    cases ho with
    | none => exact Nat.zero_le _
    | more h' ho =>
      rw [h] at h'
      cases h'
      exact Nat.succ_le_succ (ih he ho)

theorem step_of_isFinished (h : m.isFinished = true) : m.step env = m.fail .unexpectedEnd := by
  obtain ⟨hr, hm⟩ := isFinished_iff.1 h
  rw [step_cons hm, stepIn, hr]
  rfl

/-- How a run ends: the query has been read and has a program, or a step fails. -/
inductive Ends (env : Env) (m : Machine) : Except SyntaxError Program → Prop
  | program {p : Program} (hf : m.isFinished = true) (hp : m.assembly.finish = .ok p) : Ends env m (.ok p)
  | fault {e : SyntaxError} (hf : m.isFinished = false) (he : m.step env = .error e) : Ends env m (.error e)

/-- No step leads on from where a run ends. -/
theorem Ends.step_error {r : Except SyntaxError Program} (h : Ends env m r) : ∃ e, m.step env = .error e := by
  cases h with
  | program hf hp => exact ⟨_, step_of_isFinished hf⟩
  | fault hf he => exact ⟨_, he⟩

theorem exists_ends (h : m.InStep) : ∃ n, Reaches env m n ∧ Ends env n (m.run env) := by
  cases hr : m.run env with
  | ok p =>
    obtain ⟨n, hn, hf, hp⟩ := exists_reaches hr
    exact ⟨n, hn, .program hf hp⟩
  | error e =>
    obtain ⟨n, hn, he⟩ := run_error h hr
    refine ⟨n, hn, .fault ?_ he⟩
    by_contra hf
    obtain ⟨p, hp⟩ := (hn.inStep h).finish (by simpa using hf)
    rw [hn.run, run, if_pos (by simpa using hf), hp] at hr
    cases hr

/-- Steps that read nothing are paid for by the ranks of the modes alone. -/
theorem StepsTo.ranks_le (h : StepsTo env i m n) (hr : n.rest = m.rest) :
    i + Mode.ranks n.modes ≤ Mode.ranks m.modes := by
  have hw : i + (8 * n.rest.length + Mode.ranks n.modes) ≤ 8 * m.rest.length + Mode.ranks m.modes := h.weight_le
  rw [hr] at hw
  omega

theorem StepsTo.exists_read (h : StepsTo env i m n) : ∃ read, m.rest = read ++ n.rest := by
  obtain ⟨read, hread⟩ := h.reaches.rest_suffix
  exact ⟨read, hread.symm⟩

/-- Reading a text ends: some number of steps leads to where its run ends, at most eight for each character and three
more, and no more steps than these can be taken. Steps that read no character, at the end of the text or before it, are
at most as many as the ranks of the modes, and neither the modes nor their ranks come back. -/
theorem reading_ends (env : Env) (s : String) :
    (∃ k n, StepsTo env k (.start s.toList) n ∧ k ≤ 8 * s.length + 3 ∧ Ends env n (Program.ofText env s) ∧
      ∀ j m, StepsTo env j (.start s.toList) m → j ≤ k) ∧
      ∀ j m n, StepsTo env (j + 1) m n → (∃ c read, m.rest = c :: (read ++ n.rest)) ∨
        n.rest = m.rest ∧ j + 1 + Mode.ranks n.modes ≤ Mode.ranks m.modes ∧
          n.modes.map Mode.rank ≠ m.modes.map Mode.rank := by
  constructor
  · obtain ⟨n, hn, hends⟩ : ∃ n, Reaches env (.start s.toList) n ∧ Ends env n (Program.ofText env s) :=
      exists_ends (inStep_start s.toList)
    obtain ⟨k, hk⟩ := hn.exists_stepsTo
    obtain ⟨e, he⟩ := hends.step_error
    refine ⟨k, n, hk, ?_, hends, fun j m hj => hk.le_of_error he hj⟩
    have hw : k + n.weight ≤ 8 * s.toList.length + 3 := hk.weight_le
    rw [String.length_toList] at hw
    omega
  · intro j m n h
    obtain ⟨read, hread⟩ := h.exists_read
    cases read with
    | cons c read => exact .inl ⟨c, read, hread⟩
    | nil =>
      have hranks := h.ranks_le hread.symm
      refine .inr ⟨hread.symm, hranks, fun hsame => ?_⟩
      have hsum : Mode.ranks n.modes = Mode.ranks m.modes := by
        rw [Mode.ranks_eq_foldr, Mode.ranks_eq_foldr, hsame]
      omega

/-- At the end of a text that ends within a number, a step leaves the number. -/
theorem reading_ends_number :
    let m : Machine := ⟨[], .start, [.number ['1'], .operator, .computedEnd, .elementEnd, .path], .empty, 0⟩
    let n : Machine := ⟨[], .start, [.operator, .computedEnd, .elementEnd, .path],
      Assembly.empty.push (.literal (.ofInt 1)), 0⟩
    StepsTo (.standard []) 1 m n ∧ 1 + Mode.ranks n.modes ≤ Mode.ranks m.modes ∧
      n.modes.map Mode.rank ≠ m.modes.map Mode.rank := by
  intro m n
  have hstep : StepsTo (.standard []) 1 m n := .more rfl (.none n)
  refine ⟨hstep, ?_⟩
  obtain ⟨c, read, hread⟩ | ⟨-, hranks, hmodes⟩ := (reading_ends (.standard []) "").2 0 m n hstep
  · cases hread
  · exact ⟨hranks, hmodes⟩

end Machine

end PathQuery
