import PathQuery.Proofs.Query.InStep
import PathQuery.Proofs.Query.Occurrences

namespace PathQuery

open Role
open Syntax (Anchor)

/-- A text that goes on with a path. -/
def GoesOn (text : List Char) : Prop := ∃ c rest, text = c :: rest ∧ (c = '.' ∨ c = '[')

/-- What has been read of a query is a starting point with a path. -/
theorem Inside.eq_withPath {a : Assembly} (h : Inside (Complete none) [] a) :
    ∃ (anchor : Anchor) (path : List Selector), a = (Assembly.empty.push anchor.instr).withPath path := by
  obtain ⟨b, items, pending, hb, hc, rfl⟩ := h
  cases hb
  cases hc with
  | query anchor path => exact ⟨anchor, path, rfl⟩

namespace Machine

/-- A machine behind the path of a query. -/
def onPath (text : List Char) (position : Text.Position) (anchor : Anchor) (path : List Selector) (roots : Nat) :
    Machine :=
  ⟨text, position, [.path], (Assembly.empty.push anchor.instr).withPath path, roots⟩

/-- The machine before a longer text. -/
def append (m : Machine) (more : List Char) : Machine := { m with rest := m.rest ++ more }

variable {m n : Machine} {env : Env} {more : List Char}

theorem makes_append (h : m.rest ≠ []) (v : Move) :
    (m.append more).makes (m.append more).rest v = (m.makes m.rest v).map (·.append more) := by
  have hs : ∀ past, (m.append more).skip (m.append more).rest past = (m.skip m.rest past).append more := by
    intro past
    obtain ⟨c, rest, hr⟩ := List.exists_cons_of_ne_nil h
    cases past with
    | false => rfl
    | true =>
      rw [append, hr]
      rfl
  cases v with
  | refuse past fault =>
    rw [makes, hs]
    rfl
  | take past act modes =>
    have hp : act.perform (m.append more).roots (m.append more).assembly = act.perform m.roots m.assembly := rfl
    rw [makes, makes, hs, hp]
    cases act.perform m.roots m.assembly <;> rfl

theorem step_append (h : m.rest ≠ []) : (m.append more).step env = (m.step env).map (·.append more) := by
  by_cases hm : m.modes = []
  · have hm' : (m.append more).modes = [] := hm
    rw [step_nil hm, step_nil hm']
    rfl
  have hsees : (m.append more).SeesAs m := by
    obtain ⟨c, rest, hr⟩ := List.exists_cons_of_ne_nil h
    refine ⟨rfl, ?_, rfl⟩
    rw [append, hr]
    rfl
  obtain ⟨r, below, -, v, -, hx, hy⟩ := @step_move m _ env hsees hm
  rw [hx, hy, makes_append h]

/-- At the end of the text, a step ends a name, an operand or a comparator, or comes to a mode that reads on. -/
theorem step_at_end (hr : m.rest = []) (h : m.step env = .ok n) : ∃ mode below, m.modes = mode :: below ∧ n.rest = [] ∧
    ((∃ read, mode = .bareName .member read) ∧ n.modes = below ∨
      (mode.role = .operand ∨ mode.role = .comparator) ∧ n.modes = below ∨
      ∃ top others, n.modes = top :: others ∧ top ≠ .path ∧ ∀ read, top ≠ .bareName .member read) := by
  cases hm : m.modes with
  | nil =>
    rw [step_nil hm] at h
    cases h
  | cons mode below =>
    have hread : m.stepIn env below mode = .ok n := (step_cons hm).symm.trans h
    refine ⟨mode, below, rfl, ?_⟩
    cases mode <;> rw [stepIn, hr] at hread
    case bareName use read =>
      cases use <;> cases hread
      · exact ⟨hr, .inl ⟨⟨read, rfl⟩, rfl⟩⟩
      · exact ⟨hr, .inr (.inr ⟨_, _, rfl, by simp, by simp⟩)⟩
      · exact ⟨hr, .inr (.inr ⟨_, _, rfl, by simp, by simp⟩)⟩
    case number read =>
      rw [readNumber, endNumber] at hread
      split at hread <;> cases hread
      exact ⟨hr, .inr (.inl ⟨.inl rfl, rfl⟩)⟩
    case operandName name =>
      rw [readOperandName, endOperandName] at hread
      split at hread <;> cases hread
      exact ⟨hr, .inr (.inl ⟨.inl rfl, rfl⟩)⟩
    case patternEnd read =>
      rw [readPatternEnd, endPattern] at hread
      split at hread <;> cases hread
      exact ⟨hr, .inr (.inl ⟨.inr rfl, rfl⟩)⟩
    case escape quote use read e => cases hread
    case dot | integer | digits | less | greater =>
      cases hread
      exact ⟨hr, .inr (.inr ⟨_, _, rfl, by simp, by simp⟩)⟩
    all_goals cases hread

/-- Where a query that compiles ends, it is behind a part of its path, or in a name without quotes. -/
theorem Reaches.modes_at_end (h : Reaches env m n) (hn : n.isFinished = true) (hm : m.InStep) (hr : m.rest = []) :
    m.modes = [.path] ∨ ∃ read, m.modes = [.bareName .member read, .path] := by
  induction h with
  | refl m => exact .inl (isFinished_iff.1 hn).2
  | step hk _ ih =>
    obtain ⟨mode, below, hmodes, hkr, hcases⟩ := step_at_end hr hk
    have hk' := ih hn (hm.step hk) hkr
    obtain ⟨⟨read, rfl⟩, hb⟩ | ⟨hrole, hb⟩ | ⟨top, others, ht, hpath, hname⟩ := hcases
    · rw [hb] at hk'
      obtain rfl | ⟨read', rfl⟩ := hk'
      · exact .inr ⟨read, hmodes⟩
      · -- behind a name comes no other name
        have hc := hm.chained
        rw [roles, hmodes] at hc
        cases (List.isChain_cons_cons.1 hc).1
    · -- an operand stands in an expression, of which the end of the query is not the end
      have hframes : frames (Mode.roles below) = [] := by
        rw [hb] at hk'
        obtain rfl | ⟨read, rfl⟩ := hk' <;> rfl
      have hs := hm.sound
      rw [roles, hmodes] at hs
      have hfits : mode.role.Fits (frames (mode.role :: Mode.roles below)) := hs.1
      obtain hrole | hrole := hrole
      · rw [hrole] at hfits
        obtain ⟨frame, outer, he, -⟩ := hfits
        rw [frames, hframes] at he
        cases he
      · rw [hrole] at hfits
        obtain ⟨frame, outer, he, -⟩ := hfits
        rw [frames, hframes] at he
        cases he
    · rw [ht] at hk'
      obtain he | ⟨read, he⟩ := hk'
      · exact absurd (List.cons.inj he).1 hpath
      · exact absurd (List.cons.inj he).1 (hname read)

theorem step_append_at_end (hr : m.rest = []) {read : List Char} (hm : m.modes = [.bareName .member read, .path])
    (hg : GoesOn more) (h : m.step env = .ok n) : (m.append more).step env = .ok (n.append more) := by
  obtain ⟨c, rest, rfl, hc⟩ := hg
  have hd : isDelimiter c = true := by
    obtain rfl | rfl := hc <;> decide
  have hm' : (m.append (c :: rest)).modes = [.bareName .member read, .path] := hm
  have hr' : (m.append (c :: rest)).rest = c :: rest := by
    rw [append, hr]
    rfl
  rw [step_cons hm, stepIn, hr] at h
  cases h
  rw [step_cons hm', stepIn, hr', readBareName, if_pos hd]
  rfl

/-- What goes on with a path behind a query goes on with the path that the query ends with. -/
theorem Reaches.run_append (h : Reaches env m n) (hn : n.isFinished = true) (hm : m.InStep) (hg : GoesOn more) :
    (m.append more).run env = (n.append more).run env := by
  induction h with
  | refl m => rfl
  | @step m k n hk hreach ih =>
    have hstep : (m.append more).step env = .ok (k.append more) := by
      by_cases hr : m.rest = []
      · obtain hpath | ⟨read, hname⟩ := (Reaches.step hk hreach).modes_at_end hn hm hr
        · exact absurd (isFinished_iff.2 ⟨hr, hpath⟩) (not_isFinished_of_step hk)
        · exact step_append_at_end hr hname hg hk
      · rw [step_append hr, hk]
        rfl
    rw [run_of_step hstep, ih hn (hm.step hk)]

end Machine

/-- The program of a query is a starting point with a path, and a text that goes on with a path goes on with this. -/
theorem Program.ofText_append {env : Env} {s : String} {p : Program} (h : Program.ofText env s = .ok p) :
    ∃ (anchor : Anchor) (path : List Selector) (k : Nat) (position : Text.Position),
      p = [anchor.instr, .path path] ∧ pathOccurrences path = List.range k ∧
      ∀ t : String, GoesOn t.toList → Program.ofText env (s ++ t) =
        (Machine.onPath t.toList position anchor path k).run env := by
  have hstart := Machine.inStep_start s.toList
  obtain ⟨n, hn, hfin, hfinish⟩ := Machine.exists_reaches h
  obtain ⟨hrest, hmodes⟩ := Machine.isFinished_iff.1 hfin
  obtain ⟨anchor, path, ha⟩ := Inside.eq_withPath ((hn.inStep hstart).complete hfin)
  have hnumbered : n.assembly.occurrences = List.range n.roots := hn.keeps Machine.numbered_step rfl
  refine ⟨anchor, path, n.roots, n.position, ?_, ?_, ?_⟩
  · rw [ha, Assembly.finish_withPath (by cases anchor <;> rfl)] at hfinish
    cases hfinish
    rfl
  · have hanchor : (Item.instr anchor.instr).occurrences = [] := by
      cases anchor <;> simp [Item.occurrences, Anchor.instr, Instr.chains]
    rw [← hnumbered, ha]
    simp [Assembly.occurrences, Assembly.withPath, Assembly.push, Assembly.empty, hanchor]
  · intro t ht
    have hmachine : n.append t.toList = .onPath t.toList n.position anchor path n.roots := by
      rw [Machine.append, hrest, hmodes, ha]
      rfl
    have htext : Machine.start (s ++ t).toList = (Machine.start s.toList).append t.toList := by
      rw [String.toList_append]
      rfl
    rw [Program.ofText, htext, hn.run_append hfin hstart ht, hmachine]

end PathQuery
