import PathQuery.Proofs.Query.Moves

namespace PathQuery

namespace Act

variable {act closing : Act}

/-- An act that closes nothing can always be taken. -/
theorem exists_perform (h : act.closing? = none) (occurrence : Nat) (a : Assembly) :
    ∃ b, act.perform occurrence a = .ok b := by
  cases act with
  | closeGroup | closeUnion | closeFilter | closeComputed | closeArgument | closeCall => cases h
  | _ => exact ⟨_, rfl⟩

theorem eq_of_closing? (h : act.closing? = some closing) : act = closing := by
  cases act <;> cases h <;> rfl

end Act

namespace Machine

/-- The machine with another assembly. -/
def withAssembly (m : Machine) (b : Assembly) : Machine := { m with assembly := b }

variable {m : Machine} {b : Assembly} {env : Env}

theorem modes_ne_nil {act : Act} (h : m.closer? = some act) : m.modes ≠ [] := by
  intro hm
  rw [closer?, hm] at h
  cases h

/-- A step that closes nothing fails for what is in the text, whatever has been assembled. -/
theorem step_alike (hc : m.closer? = none) (hg : b.hasOpenGroup = m.assembly.hasOpenGroup) (e : SyntaxError)
    (he : m.step env = .error e) : (m.withAssembly b).step env = .error e ∧ e.fault.inText = true := by
  by_cases hm : m.modes = []
  · have hm' : (m.withAssembly b).modes = [] := hm
    rw [step_nil hm] at he
    rw [step_nil hm']
    cases he
    exact ⟨rfl, rfl⟩
  have hsees : (m.withAssembly b).SeesAs m := ⟨rfl, rfl, hg⟩
  obtain ⟨r, below, -, v, hv, hx, hy⟩ := @step_move m _ env hsees hm
  rw [hx] at he
  rw [hy]
  cases hv with
  | @refuse past fault hf =>
    cases he
    refine ⟨?_, hf⟩
    have hp : ((m.withAssembly b).skip m.rest past).position = (m.skip m.rest past).position := by
      cases past <;> cases m.rest <;> rfl
    show fail ((m.withAssembly b).skip m.rest past) fault = _
    rw [fail, hp]
  | @take past act modes next ht hmodes hact =>
    obtain ⟨a, ha⟩ := Act.exists_perform (hact.symm.trans hc) m.roots m.assembly
    rw [makes, ha] at he
    cases he

/-- What the innermost mode and the next character are when a step closes something. -/
theorem closer?_cases {act : Act} (h : m.closer? = some act) : ∃ below c rest, m.rest = c :: rest ∧
    (m.modes = .operator :: below ∧ c = ')' ∧ m.assembly.hasOpenGroup = true ∧ act = .closeGroup ∨
      m.modes = .elementEnd :: below ∧ c = ']' ∧ act = .closeUnion ∨
      m.modes = .filterEnd :: below ∧ (c = ']' ∨ c = ',') ∧ act = .closeFilter ∨
      m.modes = .computedEnd :: below ∧ (c = ']' ∨ c = ',') ∧ act = .closeComputed ∨
      m.modes = .arguments :: below ∧ c = ',' ∧ act = .closeArgument ∨
      m.modes = .arguments :: below ∧ c = ')' ∧ act = .closeCall) := by
  unfold closer? at h
  split at h
  · next mode below c rest hm hr =>
    refine ⟨below, c, rest, hr, ?_⟩
    cases mode with
    | operator | elementEnd | filterEnd | computedEnd | arguments =>
      unfold Mode.closer? at h
      split_ifs at h <;> simp_all
    | _ => cases h
  · cases h

/-- A step that closes something ends as the assembly does. -/
theorem step_closer {act : Act} (h : m.closer? = some act) :
    ∃ position, (m.step env).map (·.assembly) = (act.perform m.roots m.assembly).mapError (⟨·, position⟩) := by
  obtain ⟨r, below, -, v, hv, hx, -⟩ := @step_move m m env (.refl m) (modes_ne_nil h)
  rw [hx]
  cases hv with
  | refuse _ hc =>
    rw [h] at hc
    cases hc
  | @take past taken modes next ht hmodes hc =>
    obtain rfl := Act.eq_of_closing? (hc.symm.trans h)
    refine ⟨(m.skip m.rest past).position, ?_⟩
    rw [makes]
    cases taken.perform m.roots m.assembly <;> rfl

end Machine

end PathQuery
