import PathQuery.Proofs.Location.Recognized
import PathQuery.Proofs.Query.Answers
import PathQuery.Proofs.Query.Bulk
import PathQuery.Proofs.Query.QuotedTexts
import PathQuery.Proofs.Query.Spacing
import PathQuery.Standard

namespace PathQuery

open Syntax (NameText Spells Escaped UnitText shortEscapes escapeText_iff spells_iff)

namespace Syntax

/-- What stands behind a backslash and is no escape: an unknown character, a unit without its digits, a low surrogate,
or a high surrogate that no low one follows. -/
inductive Unreadable : List Char → Prop
  | unknown {e : Char} {rest : List Char} (hu : e ≠ 'u') (he : ∀ c, (c, e) ∉ shortEscapes) : Unreadable (e :: rest)
  | digits {rest : List Char} (h : ∀ n digits more, rest = digits ++ more → ¬UnitText n digits) :
      Unreadable ('u' :: rest)
  | low {n : Nat} {digits rest : List Char} (h : UnitText n digits) (hn : 0xDC00 ≤ n ∧ n < 0xE000) :
      Unreadable ('u' :: (digits ++ rest))
  | high {n : Nat} {digits rest : List Char} (h : UnitText n digits) (hn : 0xD800 ≤ n ∧ n < 0xDC00)
      (hr : ∀ m low more, rest = '\\' :: 'u' :: (low ++ more) → UnitText m low → ¬(0xDC00 ≤ m ∧ m < 0xE000)) :
      Unreadable ('u' :: (digits ++ rest))

variable {c : Char} {m n d : Nat} {digits others rest more es : List Char}

theorem HexDigit.unique (h : HexDigit c d) (h' : HexDigit c n) : d = n :=
  Option.some.inj ((hexValue?_eq_some_iff.2 h).symm.trans (hexValue?_eq_some_iff.2 h'))

theorem UnitText.unique (h : UnitText m digits) (h' : UnitText n others) (hm : m < 0x10000) (hn : n < 0x10000)
    (he : digits ++ rest = others ++ more) : m = n ∧ rest = more := by
  obtain ⟨h₁, h₂, h₃, h₄⟩ := h
  obtain ⟨h₁', h₂', h₃', h₄'⟩ := h'
  simp only [List.cons_append, List.nil_append, List.cons.injEq] at he
  obtain ⟨rfl, rfl, rfl, rfl, rfl⟩ := he
  have e₁ := h₁.unique h₁'
  have e₂ := h₂.unique h₂'
  have e₃ := h₃.unique h₃'
  have e₄ := h₄.unique h₄'
  exact ⟨by omega, rfl⟩

theorem Unreadable.not_escaped (h : Unreadable (es ++ rest)) : ¬Escaped c es := by
  intro hc
  have hcode := code_spec c
  generalize htext : es ++ rest = text at h
  cases hc with
  | @short e hshort =>
    have hu : ∀ p ∈ shortEscapes, p.2 ≠ 'u' := by decide
    have hne := hu _ hshort
    cases h with
    | unknown _ he =>
      obtain ⟨rfl, -⟩ := List.cons.inj htext
      exact he c hshort
    | _ => exact hne (List.cons.inj htext).1
  | unit hlt hunit =>
    cases h with
    | unknown hu _ => exact hu (List.cons.inj htext).1.symm
    | digits hd => exact hd _ _ _ (List.cons.inj htext).2.symm hunit
    | low h hn =>
      have := hunit.unique h hlt (by omega) (List.cons.inj htext).2
      omega
    | high h hn _ =>
      have := hunit.unique h hlt (by omega) (List.cons.inj htext).2
      omega
  | @pair high low hge hhigh hlow =>
    rw [List.cons_append, List.append_assoc] at htext
    cases h with
    | unknown hu _ => exact hu (List.cons.inj htext).1.symm
    | digits hd => exact hd _ _ _ (List.cons.inj htext).2.symm hhigh
    | low h hn =>
      have := hhigh.unique h (by omega) (by omega) (List.cons.inj htext).2
      omega
    | high h hn hr =>
      obtain ⟨-, hrest⟩ := hhigh.unique h (by omega) (by omega) (List.cons.inj htext).2
      exact hr _ _ _ hrest.symm hlow (by omega)

end Syntax

open Syntax (Unreadable)

/-- A name in quotes between brackets, behind the root. -/
def nameText (quote : Char) (body : List Char) : String :=
  String.ofList ('$' :: '[' :: quote :: (body ++ [quote, ']']))

variable {quote : Char} {body cs rest : List Char} {name : String}

/-- Where the quote is not behind it, a text ends at the last quote. -/
theorem eq_of_quote_not_mem (he : body ++ [quote, ']'] = cs ++ quote :: rest) (hr : quote ∉ rest)
    (hq : quote ≠ ']') : cs = body ∧ rest = [']'] := by
  obtain ⟨more, h, h'⟩ | ⟨more, h, h'⟩ := List.append_eq_append_iff.1 he
  · cases more with
    | nil =>
      rw [List.append_nil] at h
      exact ⟨h, (List.cons.inj h').2.symm⟩
    | cons c more =>
      rw [List.cons_append] at h'
      have hmem : quote ∈ [']'] := by
        rw [(List.cons.inj h').2]
        simp
      exact absurd (List.mem_singleton.1 hmem) hq
  · cases more with
    | nil =>
      rw [List.append_nil] at h
      exact ⟨h.symm, (List.cons.inj h').2⟩
    | cons c more =>
      rw [List.cons_append] at h'
      refine absurd ?_ hr
      rw [(List.cons.inj h').2]
      simp

section location

namespace Location

open Reading (next run_cons run_cons_ok run_spelled quoted_ok closing_ok gap_ok escape_ok)

theorem ofText_nameText (hq : quote = '\'' ∨ quote = '"') (body : List Char) :
    ∃ p, ofText (nameText quote body) = Reading.run ⟨[], .quoted .bracket quote []⟩ p (body ++ [quote, ']']) := by
  refine ⟨((Text.Position.start.after '$').after '[').after quote, ?_⟩
  have hquote : ∀ p, next ⟨[], .bracket⟩ p quote = .ok ⟨[], .quoted .bracket quote []⟩ := by
    intro p
    rcases hq with rfl | rfl <;> rfl
  have hroot : ∀ p, next .start p '$' = .ok ⟨[], .gap⟩ := fun _ => rfl
  have hopen : ∀ p, next ⟨[], .gap⟩ p '[' = .ok ⟨[], .bracket⟩ := fun _ => rfl
  rw [ofText, nameText, String.toList_ofList, run_cons (hroot _), run_cons (hopen _), run_cons (hquote _)]

/-- A location of one name is read from the ways to write this name. -/
theorem ofText_nameText_iff (hq : quote = '\'' ∨ quote = '"') :
    ofText (nameText quote body) = .ok [.name name] ↔ NameText quote name.toList body := by
  rw [← spells_iff]
  constructor
  · intro h
    obtain ⟨p, hrun⟩ := ofText_nameText hq body
    rw [hrun] at h
    obtain ⟨written, value, rest, q, he, hspells, h⟩ := quoted_ok h
    obtain ⟨blanks, more, q', rfl, hblanks, h⟩ := closing_ok h
    obtain ⟨l, hl, hmore⟩ := gap_ok h
    obtain ⟨hname, rfl⟩ : name = String.ofList value ∧ l = [] := by simpa using hl
    cases hmore with
    | nil hspaces =>
      have hquote : Text.isBlank quote = false ∧ quote ≠ ']' := by
        rcases hq with rfl | rfl <;> decide
      have hnot : quote ∉ blanks ++ ']' :: more := by
        intro hm
        simp only [List.mem_append, List.mem_cons] at hm
        rcases hm with hm | hm | hm
        · simp [hblanks quote hm] at hquote
        · exact hquote.2 hm
        · simp [hspaces quote hm] at hquote
      obtain ⟨rfl, -⟩ := eq_of_quote_not_mem he hnot hquote.2
      rwa [hname, String.toList_ofList]
  · intro h
    have hkey : StepText ('[' :: ([] ++ (quote :: (body ++ [quote]) ++ ([] ++ [']'])))) (.name name) := by
      have ht := KeyText.name ⟨quote, hq, body, name.toList, h⟩
      rw [Syntax.QuotedText.value, String.ofList_toList] at ht
      exact .bracket spaces_nil ht spaces_nil
    have htext : (nameText quote body).toList = [] ++ '$' :: ([] ++ ('[' :: ([] ++ (quote :: (body ++ [quote]) ++
        ([] ++ [']']))) ++ [])) := by
      simp [nameText]
    have hread : IsTextOf false [.name name] (nameText quote body).toList := by
      rw [htext]
      exact .mk spaces_nil (.inl rfl) (.cons spaces_nil hkey (.nil spaces_nil))
    exact ofText_of_isTextOf hread

/-- A text with an escape that is none is no location. -/
theorem not_ofText_of_unreadable (hq : quote = '\'' ∨ quote = '"') {written behind : List Char}
    (hw : NameText quote cs written) (hb : Unreadable (behind ++ [quote, ']'])) (l : Location) :
    ofText (nameText quote (written ++ '\\' :: behind)) ≠ .ok l := by
  intro h
  have hquote : quote ≠ '\\' := by
    rcases hq with rfl | rfl <;> decide
  obtain ⟨p, hrun⟩ := ofText_nameText hq (written ++ '\\' :: behind)
  rw [hrun, List.append_assoc, List.cons_append] at h
  obtain ⟨q, hspelled⟩ := @run_spelled ('\\' :: (behind ++ [quote, ']'])) [] p .bracket quote [] hquote _ _
    (spells_iff.2 hw)
  rw [hspelled] at h
  obtain ⟨s, hs, h⟩ := run_cons_ok h
  simp only [next, if_neg hquote.symm, if_true] at hs
  cases hs
  obtain ⟨es, d, rest, q', he, hreads, -⟩ := escape_ok h
  rw [he] at hb
  exact hb.not_escaped (escapeText_iff.1 (escapeText_of_reads hreads))

end Location

end location

section query

namespace Machine

variable {m n : Machine} {env : Env} {p : Program} {below : List Mode} {a : Assembly} {k : Nat}
  {position : Text.Position} {use : QuotedUse} {read text : List Char}

theorem step_of_run (h : m.run env = .ok p) (hf : m.isFinished = false) :
    ∃ n, m.step env = .ok n ∧ n.run env = .ok p := by
  obtain ⟨n, hn⟩ := exists_step h hf
  rw [run_of_step hn] at h
  exact ⟨n, hn, h⟩

/-- What completes an escape, and the character that it stands for. -/
theorem escape_ok {e : Text.Escape} (h : run env ⟨text, position, .escape quote use read e :: below, a, k⟩ = .ok p) :
    ∃ es d rest later, text = es ++ rest ∧ e.Reads Text.nameEscape? es d ∧
      run env ⟨rest, later, .quoted quote use (d :: read) :: below, a, k⟩ = .ok p := by
  induction text generalizing e position with
  | nil =>
    obtain ⟨n, hn, -⟩ := step_of_run h (by simp [isFinished])
    cases hn
  | cons c text ih =>
    obtain ⟨n, hn, h⟩ := step_of_run h (by simp [isFinished])
    simp only [step, stepIn, readEscape] at hn
    split at hn
    · next e' he =>
      cases hn
      obtain ⟨es, d, rest, later, rfl, hr, h⟩ := ih h
      exact ⟨c :: es, d, rest, later, rfl, .more he hr, h⟩
    · next d he =>
      cases hn
      exact ⟨[c], d, text, _, rfl, .last he, h⟩
    · cases hn
    · cases hn
    · split at hn <;> cases hn

/-- What completes a text in quotes. -/
theorem quoted_ok {text read : List Char} {position : Text.Position}
    (h : run env ⟨text, position, .quoted quote use read :: below, a, k⟩ = .ok p) :
    ∃ body value rest later, text = body ++ quote :: rest ∧ Spells quote body value ∧
      run env ⟨rest, later, below, Syntax.quotedAssembly (String.ofList (read.reverse ++ value)) a use, k⟩ = .ok p := by
  match text, h with
  | [], h =>
    obtain ⟨n, hn, -⟩ := step_of_run h (by simp [isFinished])
    cases hn
  | c :: text, h =>
    obtain ⟨n, hn, h⟩ := step_of_run h (by simp [isFinished])
    simp only [step, stepIn, readQuoted] at hn
    split at hn
    · next hc =>
      cases hn
      refine ⟨[], [], text, position.after c, by rw [hc]; rfl, .nil, ?_⟩
      rw [List.append_nil]
      cases use <;> exact h
    split at hn
    · next hc hb =>
      cases hn
      subst hb
      dsimp only [past, goto] at h
      obtain ⟨es, d, rest, later, htext, hr, h⟩ := escape_ok h
      have hshort : rest.length < text.length + 1 := by
        rw [htext, List.length_append]
        omega
      obtain ⟨body, value, rest', later', hrest, hv, h⟩ := quoted_ok h
      rw [List.reverse_cons, List.append_assoc] at h
      refine ⟨'\\' :: (es ++ body), d :: value, rest', later', ?_,
        .escape (Location.escapeText_of_reads hr) hv, h⟩
      rw [htext, hrest]
      simp
    · next hc hb =>
      cases hn
      dsimp only [past, goto] at h
      obtain ⟨body, value, rest, later, hrest, hv, h⟩ := quoted_ok h
      rw [List.reverse_cons, List.append_assoc] at h
      exact ⟨c :: body, c :: value, rest, later, by rw [hrest]; rfl, .char hc hb hv, h⟩
termination_by text.length

/-- A quote is still to come where only brackets can be closed. -/
def Closes (quote : Char) (m : Machine) : Prop := quote ∈ m.rest ∧ m.modes <:+ [.path, .elementEnd, .path]

/-- Nothing that closes reads a quote. -/
theorem mem_of_closing {c : Char} {rest : List Char} (hq : quote = '\'' ∨ quote = '"') (h : quote ∈ c :: rest)
    (hc : Text.isSpace c = true ∨ c = ']') : quote ∈ rest := by
  have hne : quote ≠ c := by
    rintro rfl
    rcases hq with rfl | rfl <;> revert hc <;> decide
  exact List.mem_of_ne_of_mem hne h

/-- What does not close behind a path adds to the query. -/
theorem step_closes_path (hq : quote = '\'' ∨ quote = '"') (hm : m.Closes quote) (hpath : m.modes = .path :: below)
    (h : m.step env = .ok n) : m.bulk < n.bulk ∨ n.Closes quote := by
  obtain ⟨hquote, hmodes⟩ := hm
  have hbelow : below <:+ [.path, .elementEnd, .path] := (List.suffix_cons _ below).trans (hpath ▸ hmodes)
  rw [step_cons hpath, stepIn] at h
  cases hr : m.rest with
  | nil => simp [hr] at hquote
  | cons c rest =>
    rw [hr, readPath] at h
    split_ifs at h with hspace hdot hlist hends
    · cases h
      exact .inr ⟨mem_of_closing hq (hr ▸ hquote) (.inl hspace), hmodes⟩
    · cases h
      left
      simp [bulk, roles, hpath, Mode.roles, Mode.role, Role.allBulk, Role.bulk, past, goto]
    · cases h
      left
      simp [bulk, roles, hpath, Mode.roles, Mode.role, Role.allBulk, Role.bulk, past, goto, openList, emit,
        Assembly.bulk_pushMark, Item.bulk]
    · cases h
      exact .inr ⟨hquote, hbelow⟩
    · cases h

/-- What does not close behind an element of a list adds to the query. -/
theorem step_closes_elementEnd (hq : quote = '\'' ∨ quote = '"') (hm : m.Closes quote)
    (hend : m.modes = .elementEnd :: below) (h : m.step env = .ok n) : m.bulk < n.bulk ∨ n.Closes quote := by
  obtain ⟨hquote, hmodes⟩ := hm
  have hbelow : below <:+ [.path, .elementEnd, .path] := (List.suffix_cons _ below).trans (hend ▸ hmodes)
  rw [step_cons hend, stepIn] at h
  cases hr : m.rest with
  | nil => simp [hr] at hquote
  | cons c rest =>
    rw [hr, readElementEnd] at h
    split_ifs at h with hspace hcomma hclose
    · cases h
      exact .inr ⟨mem_of_closing hq (hr ▸ hquote) (.inl hspace), hmodes⟩
    · cases h
      left
      simp [bulk, roles, hend, Mode.roles, Mode.role, Role.allBulk, Role.bulk, past, goto, emit,
        Assembly.bulk_pushMark, Item.bulk]
      omega
    · obtain ⟨k, hk, rfl⟩ := map_eq_ok h
      rw [attempt] at hk
      split at hk
      · cases hk
        exact .inr ⟨mem_of_closing hq (hr ▸ hquote) (.inr hclose), hbelow⟩
      · cases hk
    · cases h

theorem step_closes (hq : quote = '\'' ∨ quote = '"') (hm : m.Closes quote) (h : m.step env = .ok n) :
    m.bulk < n.bulk ∨ n.Closes quote := by
  have hmodes := hm.2
  simp only [List.suffix_cons_iff, List.suffix_nil] at hmodes
  rcases hmodes with hmodes | hmodes | hmodes | hmodes
  · exact step_closes_path hq hm hmodes h
  · exact step_closes_elementEnd hq hm hmodes h
  · exact step_closes_path hq hm hmodes h
  · rw [step_nil hmodes] at h
    cases h

/-- So a query that has a quote behind its only name is more than this name. -/
theorem three_le_bulk_of_closes (hq : quote = '\'' ∨ quote = '"') (hm : m.Closes quote) (hb : 2 ≤ m.bulk)
    (h : m.run env = .ok p) : 3 ≤ p.bulk := by
  have hkeeps : ∀ {m n : Machine}, (3 ≤ m.bulk ∨ (2 ≤ m.bulk ∧ m.Closes quote)) → m.step env = .ok n →
      3 ≤ n.bulk ∨ (2 ≤ n.bulk ∧ n.Closes quote) := by
    intro m n hm h
    have hstep := bulk_step h
    rcases hm with hm | ⟨hb, hm⟩
    · exact .inl (by omega)
    · rcases step_closes hq hm h with hlt | hn
      · exact .inl (by omega)
      · exact .inr ⟨by omega, hn⟩
  obtain ⟨n, hn, hfin, hp⟩ := run_ok hkeeps (.inr ⟨hb, hm⟩) h
  rw [bulk_finished hfin hp]
  refine hn.resolve_right ?_
  rintro ⟨-, hquote, -⟩
  simp [(isFinished_iff.1 hfin).1] at hquote

end Machine

namespace Query

open Syntax (Segment Element ElementName QuotedText)

variable {env : Env}

/-- What has been read of a name between brackets when its quote opens. -/
def openedName : Assembly := (Assembly.empty.push .root).pushSelector (.root 0) |>.pushMark .union

theorem compileWith_nameText (hq : quote = '\'' ∨ quote = '"') (env : Env) (body : List Char) : ∃ position,
    compileWith env (nameText quote body) = (Machine.run env.withLibrary
      ⟨body ++ [quote, ']'], position, [.quoted quote .member [], .path, .elementEnd, .path], openedName, 1⟩).map
        (⟨·⟩) := by
  refine ⟨((Text.Position.start.after '$').after '[').after quote, ?_⟩
  rw [compileWith, Program.ofText, nameText, String.toList_ofList]
  congr 1
  rcases hq with rfl | rfl
  · rw [Machine.run_of_step rfl, Machine.run_of_step rfl, Machine.run_of_step rfl]
    rfl
  · rw [Machine.run_of_step rfl, Machine.run_of_step rfl, Machine.run_of_step rfl]
    rfl

theorem compileWith_of_spells (hq : quote = '\'' ∨ quote = '"') (env : Env) (h : Spells quote body cs) :
    compileWith env (nameText quote body) = .ok (.ofPath [.member (String.ofList cs)]) := by
  let path : List (Segment env.withLibrary) := [.list (.member (.quoted ⟨quote, hq, body, cs, h⟩) []) []]
  have hselectors : Syntax.pathSelectors 1 path = [.member (String.ofList cs)] := rfl
  rw [← hselectors]
  refine compileWith_root ?_ ?_
  · simp [path, Syntax.pathTokens, Segment.tokens, Element.tokens, Syntax.othersTokens, ElementName.token,
      QuotedText.token]
  · simp [path, Syntax.pathTokens, Segment.tokens, Element.tokens, Syntax.othersTokens, ElementName.token,
      QuotedText.token, Syntax.Token.text, Syntax.Token.char, nameText]

/-- A path of one member is compiled from the ways to write its name. -/
theorem compileWith_nameText_iff (hq : quote = '\'' ∨ quote = '"') :
    compileWith env (nameText quote body) = .ok (.ofPath [.member name]) ↔ NameText quote name.toList body := by
  rw [← spells_iff]
  constructor
  · intro h
    obtain ⟨position, hrun⟩ := compileWith_nameText hq env body
    have hcompile := h
    rw [hrun] at h
    obtain ⟨p, hp, hquery⟩ := map_eq_ok h
    obtain ⟨written, value, rest, later, he, hspells, hrest⟩ := Machine.quoted_ok hp
    have hnot : quote ∉ rest := by
      intro hmem
      have htwo : 2 ≤ Machine.bulk ⟨rest, later, [.path, .elementEnd, .path],
          Syntax.quotedAssembly (String.ofList ([].reverse ++ value)) openedName .member, 1⟩ := Nat.le_refl 2
      have hbulk := Machine.three_le_bulk_of_closes hq ⟨hmem, List.suffix_rfl⟩ htwo hrest
      cases hquery
      simp [Program.bulk, Instr.bulk, pathBulk, Selector.bulk] at hbulk
    have hbracket : quote ≠ ']' := by
      rcases hq with rfl | rfl <;> decide
    obtain ⟨rfl, -⟩ := eq_of_quote_not_mem he hnot hbracket
    rw [compileWith_of_spells hq env hspells] at hcompile
    have hname : name = String.ofList value := by
      cases hcompile
      rfl
    rwa [hname, String.toList_ofList]
  · intro h
    rw [compileWith_of_spells hq env h, String.ofList_toList]

/-- A text with an escape that is none is no query. -/
theorem not_compileWith_of_unreadable (hq : quote = '\'' ∨ quote = '"') {written behind : List Char}
    (hw : NameText quote cs written) (hb : Unreadable (behind ++ [quote, ']'])) (q : Query) :
    compileWith env (nameText quote (written ++ '\\' :: behind)) ≠ .ok q := by
  intro h
  have hquote : quote ≠ '\\' := by
    rcases hq with rfl | rfl <;> decide
  obtain ⟨position, hrun⟩ := compileWith_nameText hq env (written ++ '\\' :: behind)
  rw [hrun] at h
  obtain ⟨p, hp, -⟩ := map_eq_ok h
  rw [List.append_assoc, List.cons_append] at hp
  have hcomes : Syntax.Comes env.withLibrary
      ⟨written ++ '\\' :: (behind ++ [quote, ']']), [.quoted quote .member [], .path, .elementEnd, .path],
        openedName, 1⟩
      ⟨'\\' :: (behind ++ [quote, ']']), [.quoted quote .member (cs.reverse ++ []), .path, .elementEnd, .path],
        openedName, 1⟩ := Syntax.comes_spelled hquote (spells_iff.2 hw)
  obtain ⟨later, hreach⟩ := hcomes position
  have hspelled := hreach.run.symm.trans hp
  obtain ⟨n, hn, h⟩ := Machine.step_of_run hspelled rfl
  have hescape : n = ⟨behind ++ [quote, ']'], later.after '\\',
      [.escape quote .member (cs.reverse ++ []) .backslash, .path, .elementEnd, .path], openedName, 1⟩ := by
    simp only [Syntax.Stage.at, Machine.step, Machine.stepIn, Machine.readQuoted, if_neg hquote.symm, if_true] at hn
    cases hn
    rfl
  rw [hescape] at h
  obtain ⟨es, d, rest, -, he, hreads, -⟩ := Machine.escape_ok h
  rw [he] at hb
  exact hb.not_escaped (escapeText_iff.1 (Location.escapeText_of_reads hreads))

end Query

end query

/-- Both readers of names in quotes take a text for one name between brackets just if it is a way to write this name,
and refuse it where a backslash starts no escape. -/
theorem quoted_names_agree (env : Env) (hq : quote = '\'' ∨ quote = '"') (body : List Char) :
    (∀ name, Location.ofText (nameText quote body) = .ok [.name name] ↔
      Query.compileWith env (nameText quote body) = .ok (.ofPath [.member name])) ∧
    (∀ name, Location.ofText (nameText quote body) = .ok [.name name] ↔ NameText quote name.toList body) ∧
    ∀ cs written behind, body = written ++ '\\' :: behind → NameText quote cs written →
      Unreadable (behind ++ [quote, ']']) →
        (∃ e, Location.ofText (nameText quote body) = .error e) ∧
          ∃ e, Query.compileWith env (nameText quote body) = .error e := by
  refine ⟨?_, fun name => Location.ofText_nameText_iff hq, ?_⟩
  · intro name
    rw [Location.ofText_nameText_iff hq, Query.compileWith_nameText_iff hq]
  · rintro cs written behind rfl hw hb
    constructor
    · cases h : Location.ofText (nameText quote (written ++ '\\' :: behind)) with
      | error e => exact ⟨e, rfl⟩
      | ok l => exact absurd h (Location.not_ofText_of_unreadable hq hw hb l)
    · cases h : Query.compileWith env (nameText quote (written ++ '\\' :: behind)) with
      | error e => exact ⟨e, rfl⟩
      | ok q => exact absurd h (Query.not_compileWith_of_unreadable hq hw hb q)

/-- A unit, a pair, a short escape and both quotes are read; surrogates in the wrong order are refused. -/
theorem quoted_names_agree_escapes :
    Location.ofText "$['\\u00E9\\uD83d\\uDe00\\/\"\\'']" = .ok [.name "é😀/\"'"] ∧
      Query.compileWith (.standard []) "$['\\u00E9\\uD83d\\uDe00\\/\"\\'']" = .ok (.ofPath [.member "é😀/\"'"]) ∧
      (∃ e, Location.ofText "$['a\\udc00\\ud83d']" = .error e) ∧
      ∃ e, Query.compileWith (.standard []) "$['a\\udc00\\ud83d']" = .error e := by
  have hdigit : ∀ {c d}, Text.hexValue? c = some d → Syntax.HexDigit c d := Syntax.hexValue?_eq_some_iff.1
  have hname : NameText '\'' ['é', '😀', '/', '"', '\''] ['\\', 'u', '0', '0', 'E', '9', '\\', 'u', 'D', '8', '3', 'd',
      '\\', 'u', 'D', 'e', '0', '0', '\\', '/', '"', '\\', '\''] :=
    .escaped (.unit (by decide) (.mk (hdigit rfl) (hdigit rfl) (hdigit rfl) (hdigit rfl)))
      (.escaped (.pair (by decide) (.mk (hdigit rfl) (hdigit rfl) (hdigit rfl) (hdigit rfl))
          (.mk (hdigit rfl) (hdigit rfl) (hdigit rfl) (hdigit rfl)))
        (.escaped (.short (by decide)) (.raw (by decide) (by decide) (.escaped (.short (by decide)) .nil))))
  have hunit : UnitText 0xDC00 ['d', 'c', '0', '0'] := .mk (hdigit rfl) (hdigit rfl) (hdigit rfl) (hdigit rfl)
  have hlow : Unreadable ('u' :: (['d', 'c', '0', '0'] ++ ['\\', 'u', 'd', '8', '3', 'd', '\'', ']'])) :=
    .low hunit (by decide)
  obtain ⟨hsame, hread, -⟩ :=
    quoted_names_agree (.standard []) (.inl rfl) ['\\', 'u', '0', '0', 'E', '9', '\\', 'u', 'D', '8', '3', 'd',
    '\\', 'u', 'D', 'e', '0', '0', '\\', '/', '"', '\\', '\'']
  obtain ⟨-, -, hrefused⟩ :=
    quoted_names_agree (.standard []) (.inl rfl) ['a', '\\', 'u', 'd', 'c', '0', '0', '\\', 'u', 'd', '8', '3', 'd']
  have hlocation := (hread "é😀/\"'").2 hname
  have hquery := (hsame _).1 hlocation
  have herrors := hrefused ['a'] ['a'] ['u', 'd', 'c', '0', '0', '\\', 'u', 'd', '8', '3', 'd'] rfl
    (.raw (by decide) (by decide) .nil) hlow
  have htext : nameText '\'' ['\\', 'u', '0', '0', 'E', '9', '\\', 'u', 'D', '8', '3', 'd', '\\', 'u', 'D', 'e', '0',
      '0', '\\', '/', '"', '\\', '\''] = "$['\\u00E9\\uD83d\\uDe00\\/\"\\'']" := by decide
  have htext' : nameText '\'' ['a', '\\', 'u', 'd', 'c', '0', '0', '\\', 'u', 'd', '8', '3', 'd'] =
      "$['a\\udc00\\ud83d']" := by decide
  rw [htext] at hlocation hquery
  rw [htext'] at herrors
  exact ⟨hlocation, hquery, herrors⟩

end PathQuery
