import PathQuery.Location.Reader
import PathQuery.Proofs.Query.Placed
import PathQuery.Standard

namespace PathQuery

namespace Text.Position

/-- A position counts the line feeds before it, and the characters behind the last of them. -/
theorem afterAll_start (cs : List Char) :
    start.afterAll cs = ⟨1 + cs.count '\n', 1 + (cs.reverse.takeWhile (· ≠ '\n')).length⟩ := by
  induction cs using List.reverseRecOn with
  | nil => rfl
  | append_singleton cs c ih =>
    have hafter : start.afterAll (cs ++ [c]) = (start.afterAll cs).after c := by
      rw [afterAll_append]
      rfl
    rw [hafter, ih, after, List.reverse_append, List.count_append]
    by_cases hc : c = '\n'
    · simp [hc, Nat.add_assoc]
    · simp [hc]
      omega

end Text.Position

namespace Location.Reading

variable {r : Reading} {p : Text.Position} {c : Char}

/-- An error before the character, or behind it, that is not the end of the text. -/
def Shown (p : Text.Position) (c : Char) (e : SyntaxError) : Prop :=
  (e.position = p ∨ e.position = p.after c) ∧ e.fault ≠ .unexpectedEnd

theorem spares_before {α : Type} {x : Except SyntaxFault α} (h : Spares (· = .unexpectedEnd) x) :
    Spares (¬Shown p c ·) (x.mapError (⟨·, p⟩)) :=
  .mapError fun fault hf hnot => hnot ⟨.inl rfl, h fault hf⟩

theorem spares_nextInGap (r : Reading) (c : Char) : Spares (· = .unexpectedEnd) (r.nextInGap c) := by
  simp [nextInGap]

theorem spares_nextClosing (r : Reading) (c : Char) : Spares (· = .unexpectedEnd) (r.nextClosing c) := by
  simp [nextClosing]

theorem spares_pushIndex (r : Reading) (form : Form) (read : List Char) :
    Spares (· = .unexpectedEnd) (r.pushIndex form read) := by
  simp [pushIndex]

theorem spares_nextAfter (r : Reading) (form : Form) (c : Char) :
    Spares (· = .unexpectedEnd) (r.nextAfter form c) := by
  simp [nextAfter, spares_nextInGap, spares_nextClosing]

theorem next_error {e : SyntaxError} (h : r.next p c = .error e) : Shown p c e := by
  suffices hs : Spares (¬Shown p c ·) (r.next p c) from not_not.1 (hs e h)
  have hfail : ∀ fault : SyntaxFault, fault ≠ .unexpectedEnd →
      Spares (¬Shown p c ·) (.error ⟨fault, p⟩ : Except SyntaxError Reading) :=
    fun fault hf => spares_error.2 fun hnot => hnot ⟨.inl rfl, hf⟩
  have hgap : ∀ r : Reading, Spares (¬Shown p c ·) ((r.nextInGap c).mapError (⟨·, p⟩)) :=
    fun r => spares_before (spares_nextInGap r c)
  unfold next
  cases r.scan with
  | start => simp [hfail]
  | gap => exact hgap r
  | bracket => simp [hfail]
  | quoted form quote read => simp
  | escape form quote read e' =>
    dsimp only
    cases e'.next Text.nameEscape? c with
    | lone => exact spares_error.2 fun hnot => hnot ⟨.inr rfl, nofun⟩
    | _ => simp [hfail]
  | digits form read =>
    have hindex := (spares_pushIndex r form read).bind fun r => spares_nextAfter r form c
    exact spares_ite.2 ⟨fun _ => spares_ok _, fun _ => spares_before hindex⟩
  | closing => exact spares_before (spares_nextClosing r c)
  | dot => simp [hfail, hgap]
  | bare read => simp [hgap]

theorem run_error_placed {e : SyntaxError} {text : List Char} (h : r.run p text = .error e) :
    ∃ before rest, text = before ++ rest ∧ e.position = p.afterAll before ∧ (e.fault = .unexpectedEnd → rest = []) ∧
      ∀ d later, rest = d :: later → ∀ other, r.run p (before ++ d :: other) = .error e := by
  induction text generalizing r p with
  | nil =>
    obtain ⟨fault, -, rfl⟩ := mapError_eq_error h
    exact ⟨[], [], rfl, rfl, fun _ => rfl, nofun⟩
  | cons c text ih =>
    cases hn : r.next p c with
    | error e' =>
      have hfails : ∀ other, r.run p (c :: other) = .error e' := by
        intro other
        rw [run, hn]
        rfl
      obtain rfl : e' = e := Except.error.inj ((hfails text).symm.trans h)
      obtain ⟨hp | hp, hfault⟩ := next_error hn
      · refine ⟨[], c :: text, rfl, hp, fun he => absurd he hfault, ?_⟩
        rintro _ _ ⟨⟩ other
        exact hfails other
      · exact ⟨[c], text, rfl, hp, fun he => absurd he hfault, fun d later _ other => hfails (d :: other)⟩
    | ok r' =>
      have hgoes : ∀ other, r.run p (c :: other) = r'.run (p.after c) other := by
        intro other
        rw [run, hn]
        rfl
      rw [hgoes] at h
      obtain ⟨before, rest, rfl, hp, hend, hother⟩ := ih h
      refine ⟨c :: before, rest, rfl, hp, hend, fun d later hlater other => ?_⟩
      rw [List.cons_append, hgoes]
      exact hother d later hlater other

end Location.Reading

/-- What a reader's error tells of the text: the position is that of a part of the text that has been read, all of it if
the text ends too early, and any text that has this part and the next character in common is refused with this error. -/
def SyntaxError.Decided {α : Type} (read : String → Except SyntaxError α) (s : String) (e : SyntaxError) : Prop :=
  ∃ p ≤ s.toList.length,
    e.position.line = 1 + (s.toList.take p).count '\n' ∧
    e.position.column = 1 + ((s.toList.take p).reverse.takeWhile (· ≠ '\n')).length ∧
    (e.fault = .unexpectedEnd → p = s.toList.length) ∧
    (p < s.toList.length →
      ∀ t : String, t.toList.take (p + 1) = s.toList.take (p + 1) → read t = .error e)

theorem SyntaxError.decided_of_placed {α : Type} {read : String → Except SyntaxError α} {s : String} {e : SyntaxError}
    {before rest : List Char} (hs : s.toList = before ++ rest) (hp : e.position = Text.Position.start.afterAll before)
    (hend : e.fault = .unexpectedEnd → rest = [])
    (hother : ∀ c later, rest = c :: later → ∀ other, ∀ t : String, t.toList = before ++ c :: other →
      read t = .error e) : e.Decided read s := by
  have hbefore : s.toList.take before.length = before := by rw [hs, List.take_left]
  rw [Text.Position.afterAll_start] at hp
  refine ⟨before.length, by simp [hs], by rw [hp, hbefore], by rw [hp, hbefore], ?_, ?_⟩
  · intro hfault
    rw [hs, hend hfault, List.append_nil]
  · intro hlt t ht
    obtain ⟨c, later, rfl⟩ : ∃ c later, rest = c :: later := by
      refine List.exists_cons_of_ne_nil ?_
      rintro rfl
      simp [hs] at hlt
    have hprefix : s.toList.take (before.length + 1) = before ++ [c] := by
      rw [hs, List.take_length_add_append, List.take_one]
      rfl
    refine hother c later rfl (t.toList.drop (before.length + 1)) t ?_
    have hsplit := List.take_append_drop (before.length + 1) t.toList
    rw [ht, hprefix, List.append_assoc] at hsplit
    exact hsplit.symm

/-- The position of an error is exact, and an error is decided by what has been read: by the characters before it and
the one that shows it, or by the whole text. -/
theorem errors_decided (env : Env) (s : String) (e : SyntaxError) :
    (Query.compileWith env s = .error e → e.Decided (Query.compileWith env) s) ∧
      (Location.ofText s = .error e → e.Decided Location.ofText s) := by
  constructor
  · intro h
    have herror : ∀ {t : String}, Query.compileWith env t = .error e ↔
        (Machine.start t.toList).run env.withLibrary = .error e := by
      intro t
      rw [Query.compileWith, Program.ofText]
      cases (Machine.start t.toList).run env.withLibrary <;> simp [Except.map]
    obtain ⟨before, rest, hs, hp, hend, hother⟩ := Machine.run_error_placed (herror.1 h)
    refine SyntaxError.decided_of_placed hs hp hend ?_
    intro c later hlater other t ht
    have hrun := hother c later hlater other
    rw [herror, ht]
    exact hrun
  · intro h
    obtain ⟨before, rest, hs, hp, hend, hother⟩ := Location.Reading.run_error_placed h
    refine SyntaxError.decided_of_placed hs hp hend ?_
    intro c later hlater other t ht
    rw [Location.ofText, ht]
    exact hother c later hlater other

/-- Characters that show an error on the second line of a query and of a location. -/
theorem errors_decided_second_line :
    let e : SyntaxError := ⟨.expectedSeparator, ⟨2, 6⟩⟩
    let e' : SyntaxError := ⟨.expectedQuoteOrDigit, ⟨2, 4⟩⟩
    (Query.compileWith (.standard []) "$.a\n[?(@ ^ 1)]" = .error e ∧
        e.Decided (Query.compileWith (.standard [])) "$.a\n[?(@ ^ 1)]") ∧
      Location.ofText "$\n.a[x]" = .error e' ∧ e'.Decided Location.ofText "$\n.a[x]" := by
  intro e e'
  have hreach : Machine.Reaches (Env.standard []).withLibrary (.start "$.a\n[?(@ ^ 1)]".toList) _ :=
    .step rfl (.step rfl (.step rfl (.step rfl (.step rfl (.step rfl (.step rfl (.step rfl (.step rfl (.step rfl
      (.step rfl (.step rfl (.refl _))))))))))))
  have hquery : Query.compileWith (.standard []) "$.a\n[?(@ ^ 1)]" = .error e := by
    have hrun := hreach.run.trans (Machine.run_of_error rfl rfl)
    rw [Query.compileWith, Program.ofText, hrun]
    rfl
  have hlocation : Location.ofText "$\n.a[x]" = .error e' := by decide
  exact ⟨⟨hquery, (errors_decided (.standard []) _ e).1 hquery⟩, hlocation,
    (errors_decided (.standard []) _ e').2 hlocation⟩

end PathQuery
