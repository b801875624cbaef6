import PathQuery.Proofs.Query.Answers
import PathQuery.Proofs.Query.Ranges
import PathQuery.Standard

namespace PathQuery

open Eval
open Syntax (BareName Element Integer MemberName QuotedText Segment SliceText Token othersTokens pathSelectors
  pathTokens)

/-- The text of a bound, which may be missing. -/
def boundText (b : Option Int) : String := b.elim "" Int.repr

section texts

variable {env : Env}

theorem exists_bound {b : Option Int} (h : ∀ i ∈ b, fitsInt64 i = true) : ∃ n : Option Integer,
    n.map (·.value) = b ∧ (SliceText.boundTokens n).flatMap Token.text = (boundText b).toList := by
  cases b with
  | none => exact ⟨none, rfl, rfl⟩
  | some i =>
    obtain ⟨n, hn, ht⟩ := Integer.exists_repr (h i rfl)
    exact ⟨some n, congrArg some hn, by simp [SliceText.boundTokens, boundText, ht]⟩

theorem apart_boundTokens (n : Option Integer) : ∀ t ∈ SliceText.boundTokens n, t.apart = false := by
  intro t ht
  cases n with
  | none => cases ht
  | some n =>
    obtain rfl : t = n.token := by simpa [SliceText.boundTokens] using ht
    rfl

/-- Digits can stand in a name without quotes. -/
theorem isDelimiter_of_isDigit {c : Char} (h : c.isDigit = true) : isDelimiter c = false := by
  have hne : ∀ d : Char, d.isDigit = false → c ≠ d := fun d => Syntax.ne_of_isDigit h
  simp [isDelimiter, Syntax.isSpace_of_isDigit h, hne]

theorem mem_repr {i : Int} {c : Char} (hc : c ∈ i.repr.toList) : c = '-' ∨ c.isDigit = true := by
  rw [Syntax.repr_toList] at hc
  split at hc
  · exact .inr (isDigit_of_mem_toDigits hc)
  · rcases List.mem_cons.1 hc with rfl | hc
    · exact .inl rfl
    · exact .inr (isDigit_of_mem_toDigits hc)

theorem spells_plain {quote : Char} {cs : List Char} (hq : quote ∉ cs) (hb : '\\' ∉ cs) :
    Syntax.Spells quote cs cs := by
  induction cs with
  | nil => exact .nil
  | cons c cs ih =>
    rw [List.mem_cons, not_or] at hq hb
    exact .char (Ne.symm hq.1) (Ne.symm hb.1) (ih hq.2 hb.2)

namespace Query

/-- A bracket list of one element that is written without blanks. -/
theorem compileWith_element {e : Element env.withLibrary} {x : Selector} {text : String}
    (hx : e.branch 1 = ⟨none, [x]⟩) (ha : ∀ t ∈ e.tokens, t.apart = false)
    (ht : text.toList = '$' :: '[' :: (e.tokens.flatMap Token.text ++ [']'])) :
    compileWith env text = .ok (.ofPath [x]) := by
  have hselectors : pathSelectors 1 [Segment.list e []] = [x] := by
    rw [pathSelectors, Segment.selectors, hx]
    rfl
  have htokens : pathTokens [Segment.list e []] = .char '[' :: (e.tokens ++ [.char ']']) := by
    simp [pathTokens, Segment.tokens, othersTokens]
  rw [← hselectors]
  refine compileWith_root ?_ ?_
  · intro t hm
    rw [htokens] at hm
    rcases List.mem_cons.1 hm with rfl | hm
    · rfl
    · rcases List.mem_append.1 hm with hm | hm
      · exact ha t hm
      · obtain rfl : t = .char ']' := by simpa using hm
        rfl
  · rw [htokens, ht]
    simp

theorem compileWith_index {i : Int} (hi : fitsInt64 i = true) :
    compileWith env ("$[" ++ i.repr ++ "]") = .ok (.ofPath [.index i]) := by
  obtain ⟨n, hn, ht⟩ := Integer.exists_repr hi
  refine compileWith_element (e := .index n) ?_ ?_ ?_
  · rw [Element.branch, hn]
  · intro t hm
    obtain rfl : t = n.token := by simpa [Element.tokens] using hm
    rfl
  · simp [Element.tokens, ht]

theorem compileWith_sliceText (s : SliceText) {text : String}
    (ht : text.toList = '$' :: '[' :: (s.tokens.flatMap Token.text ++ [']'])) :
    compileWith env text = .ok (.ofPath [.slice s.slice]) := by
  refine compileWith_element (e := .slice s) rfl ?_ ht
  intro t hm
  obtain ⟨start, stop, step, hz⟩ := s
  rcases List.mem_append.1 hm with hm | hm
  · rcases List.mem_append.1 hm with hm | hm
    · exact apart_boundTokens start t hm
    · rcases List.mem_cons.1 hm with rfl | hm
      · rfl
      · exact apart_boundTokens stop t hm
  · cases step with
    | none => cases hm
    | some last =>
      rcases List.mem_cons.1 hm with rfl | hm
      · rfl
      · exact apart_boundTokens last t hm

theorem compileWith_slice {start stop step : Option Int} (hs : Slice.Fits ⟨start, stop, step.getD 1⟩) :
    compileWith env ("$[" ++ boundText start ++ ":" ++ boundText stop ++ ":" ++ boundText step ++ "]") =
      .ok (.ofPath [.slice ⟨start, stop, step.getD 1⟩]) := by
  have hstep : ∀ i ∈ step, fitsInt64 i = true := by
    rintro i rfl
    exact hs.step
  obtain ⟨a, rfl, hatext⟩ := exists_bound hs.start
  obtain ⟨b, rfl, hbtext⟩ := exists_bound hs.stop
  obtain ⟨c, rfl, hctext⟩ := exists_bound hstep
  have hz : ∀ i, some c = some (some i) → i.value ≠ 0 := by
    rintro i hi
    cases hi
    exact hs.nonzero
  exact compileWith_sliceText ⟨a, b, some c, hz⟩ (by simp [SliceText.tokens, hatext, hbtext, hctext])

/-- A slice whose step is not written. -/
theorem compileWith_slice_short {start stop : Option Int} (hs : Slice.Fits ⟨start, stop, 1⟩) :
    compileWith env ("$[" ++ boundText start ++ ":" ++ boundText stop ++ "]") =
      .ok (.ofPath [.slice ⟨start, stop, 1⟩]) := by
  obtain ⟨a, rfl, hatext⟩ := exists_bound hs.start
  obtain ⟨b, rfl, hbtext⟩ := exists_bound hs.stop
  have hz : ∀ i : Integer, none = some (some i) → i.value ≠ 0 := by
    intro i hi
    cases hi
  exact compileWith_sliceText ⟨a, b, none, hz⟩ (by simp [SliceText.tokens, hatext, hbtext])

/-- The texts of a query that steps to a member of the root. -/
def memberTexts (name : String) : List String := ["$." ++ name, "$['" ++ name ++ "']", "$[\"" ++ name ++ "\"]"]

theorem compileWith_quoted {quote : Char} (hq : quote = '\'' ∨ quote = '"') {name text : String}
    (hn : ∀ c ∈ name.toList, isDelimiter c = false) (hb : '\\' ∉ name.toList)
    (ht : text.toList = '$' :: '[' :: quote :: (name.toList ++ [quote, ']'])) :
    compileWith env text = .ok (.ofPath [.member name]) := by
  have hquote : quote ∉ name.toList := by
    intro hm
    have hplain := hn quote hm
    rcases hq with rfl | rfl <;> exact absurd hplain (by decide)
  have hvalue : (⟨quote, hq, name.toList, name.toList, spells_plain hquote hb⟩ : QuotedText).value = name :=
    String.ofList_toList
  refine compileWith_element
    (e := .member (.quoted ⟨quote, hq, name.toList, name.toList, spells_plain hquote hb⟩) []) ?_ ?_ ?_
  · rw [Element.branch, Syntax.ElementName.value, hvalue]
    rfl
  · intro t hm
    obtain rfl : t = ⟨quote, name.toList ++ [quote], false⟩ := by
      simpa [Element.tokens, Syntax.ElementName.token, QuotedText.token, pathTokens] using hm
    rfl
  · rw [ht]
    simp [Element.tokens, Syntax.ElementName.token, QuotedText.token, pathTokens, Token.text]

theorem compileWith_bare {name text : String} (hne : name.toList ≠ []) (hn : ∀ c ∈ name.toList, isDelimiter c = false)
    (ht : text.toList = '$' :: '.' :: name.toList) : compileWith env text = .ok (.ofPath [.member name]) := by
  obtain ⟨c, cs, hcs⟩ := List.exists_cons_of_ne_nil hne
  have hvalue : BareName.value ⟨c, cs, hcs ▸ hn⟩ = name := by
    rw [BareName.value, ← hcs]
    exact String.ofList_toList
  have hselectors : pathSelectors 1 [(.member (.bare ⟨c, cs, hcs ▸ hn⟩) : Segment env.withLibrary)] =
      [.member name] := by
    rw [pathSelectors, Segment.selectors, MemberName.value, hvalue]
    rfl
  rw [← hselectors]
  refine compileWith_root ?_ ?_
  · intro t hm
    simp only [pathTokens, Segment.tokens, List.append_nil, List.mem_cons, List.not_mem_nil, or_false] at hm
    rcases hm with rfl | rfl <;> rfl
  · rw [ht]
    simp [pathTokens, Segment.tokens, MemberName.token, BareName.token, Token.text, Token.char, hcs]

/-- The decimal text of an integer is a name. -/
theorem compileWith_memberTexts (i : Int) :
    ∀ text ∈ memberTexts i.repr, compileWith env text = .ok (.ofPath [.member i.repr]) := by
  have hplain : ∀ c ∈ i.repr.toList, isDelimiter c = false := by
    intro c hc
    obtain rfl | hd := mem_repr hc
    · decide
    · exact isDelimiter_of_isDigit hd
  have hslash : '\\' ∉ i.repr.toList := fun hm => absurd (mem_repr hm) (by decide)
  have hne : i.repr.toList ≠ [] := by
    rw [Syntax.repr_toList]
    split
    · exact Nat.toDigits_ne_nil
    · nofun
  intro text ht
  simp only [memberTexts, List.mem_cons, List.not_mem_nil, or_false] at ht
  rcases ht with rfl | rfl | rfl
  · exact compileWith_bare hne hplain (by simp)
  · exact compileWith_quoted (.inl rfl) hplain hslash (by simp)
  · exact compileWith_quoted (.inr rfl) hplain hslash (by simp)

end Query

end texts

section zero

open Syntax

variable {env : Env} {t : Token} {ts : List Token} {below : List Mode} {a : Assembly} {k : Nat}

/-- A step that reads as zero is refused in every bracket list. -/
theorem gives_zeroStep (start stop : Option Integer) {zero : Integer} (hz : zero.value = 0)
    (ht : t.first = ']' ∨ t.first = ',') :
    Config.Gives env
      ⟨SliceText.boundTokens start ++ .char ':' :: (SliceText.boundTokens stop ++ .char ':' :: zero.token :: t :: ts),
        .element :: below, a, k⟩ (.error .zeroStep) := by
  have hbounds : Leads env
      ⟨SliceText.boundTokens start ++ .char ':' :: (SliceText.boundTokens stop ++ .char ':' :: zero.token :: t :: ts),
        .element :: below, a, k⟩
      ⟨zero.token :: t :: ts, .integer (.step (start.map (·.value)) (stop.map (·.value))) :: below, a, k⟩ :=
    ((leads_firstBound start endsBound_colon fun _ => rfl).trans (leads_firstColon start)).trans
      ((leads_bound stop endsBound_colon).trans (leads_secondColon _ stop))
  refine (hbounds.trans (leads_integer zero (.inr ht))).gives ?_
  intro blanks text hb hw
  cases hw with
  | @cons _ _ blanks' text' _ _ _ =>
    refine (comes_blanks rfl hb).gives (Stage.gives_error fun position => ⟨position, ?_⟩)
    have hspace : Text.isSpace t.first = false := by
      rcases ht with h | h <;> rw [h] <;> rfl
    have hclose : (t.first = ']' || t.first = ',') = true := by simpa using ht
    simp only [Machine.step, Machine.stepIn, Machine.readBoundEnd, hspace, hclose, readBound_boundRead, if_true]
    simp [Except.bind, Except.map, Machine.boundSelector, hz, Machine.fail]

end zero

namespace Query

/-- A step of zero, however it is spelled, is refused. -/
theorem compileWith_zeroStep (env : Env) {start stop : Option Int} {zero : Integer}
    (hstart : ∀ i ∈ start, fitsInt64 i = true) (hstop : ∀ i ∈ stop, fitsInt64 i = true) (hz : zero.value = 0) :
    ∃ position, compileWith env ("$[" ++ boundText start ++ ":" ++ boundText stop ++ ":" ++
      String.ofList zero.token.text ++ "]") = .error ⟨.zeroStep, position⟩ := by
  obtain ⟨a, -, hatext⟩ := exists_bound hstart
  obtain ⟨b, -, hbtext⟩ := exists_bound hstop
  have hgives : Syntax.Config.Gives env.withLibrary
      ⟨.char '$' :: .char '[' :: (SliceText.boundTokens a ++ .char ':' :: (SliceText.boundTokens b ++
        .char ':' :: zero.token :: .char ']' :: [])), [.start], .empty, 0⟩ (.error .zeroStep) :=
    (Syntax.leads_startRoot.trans (Syntax.leads_openList .path)).gives (gives_zeroStep a b hz (.inl rfl))
  have hfault := hgives.ofText ?_ ("$[" ++ boundText start ++ ":" ++ boundText stop ++ ":" ++
    String.ofList zero.token.text ++ "]") (by simp [hatext, hbtext])
  · obtain ⟨e, he, hz⟩ := mapError_eq_error hfault
    refine ⟨e.position, ?_⟩
    rw [compileWith, he, ← hz]
    rfl
  · intro t ht
    simp only [List.mem_cons, List.mem_append, List.not_mem_nil, or_false] at ht
    rcases ht with rfl | rfl | ht | rfl | ht | rfl | rfl | rfl
    · rfl
    · rfl
    · exact apart_boundTokens a t ht
    · rfl
    · exact apart_boundTokens b t ht
    all_goals rfl

end Query

section selecting

variable {t : Strategy} {s : Setting} {n : Node}

theorem select_index (i : Int) : select t s [.index i] n = pure ⟨(n.at? s.keep i).toList, .single⟩ := by
  simp only [select, follow]
  rw [goOn_pure]
  cases n.at? s.keep i <;> rfl

theorem select_slice (r : Slice) : select t s [.slice r] n = pure ⟨n.sliced s.keep r, .many⟩ := by
  simp only [select, follow]
  exact collect_pure _

/-- On an array the decimal text of an integer is a name for the index. -/
theorem named?_repr {keep : Bool} {i : Int} (hi : fitsInt64 i = true) {vs : List Value} (hv : n.value = .array vs) :
    n.named? keep i.repr = n.at? keep i := by
  have hread : (readInt? i.repr.toList).bind int64? = some i := by
    rw [Syntax.readInt?_repr, Option.bind_some]
    exact if_pos hi
  simp only [Node.named?, hv, hread]

theorem follow_repr {i : Int} (hi : fitsInt64 i = true) {vs : List Value} (hv : n.value = .array vs)
    (go : Node → Eval Matches) (kind : Kind) :
    follow t s (.member i.repr) go kind n = follow t s (.index i) go kind n := by
  rw [follow, follow, named?_repr hi hv]

end selecting

/-- An index that is not too far from the end it counts from names a place. -/
theorem resolveIndex?_inside {i : Int} {size : Nat} (hlow : -(size : Int) ≤ i) (hhigh : i < size) :
    ∃ j : Nat, (j : Int) = (if i < 0 then size + i else i) ∧ j < size ∧ resolveIndex? i size = some j := by
  have hplace : 0 ≤ (if i < 0 then (size : Int) + i else i) ∧ (if i < 0 then (size : Int) + i else i) < size := by omega
  obtain ⟨j, hj⟩ := Int.eq_ofNat_of_zero_le hplace.1
  rw [hj] at hplace ⊢
  refine ⟨j, rfl, by omega, ?_⟩
  unfold resolveIndex?
  rw [hj]
  simp [hplace]

theorem resolveIndex?_outside {i : Int} {size : Nat} (h : ¬(-(size : Int) ≤ i ∧ i < size)) :
    resolveIndex? i size = none := by
  have hplace : ¬(0 ≤ (if i < 0 then (size : Int) + i else i) ∧ (if i < 0 then (size : Int) + i else i) < size) := by
    omega
  simp [resolveIndex?, hplace]

theorem Node.element?_root {vs : List Value} {j : Nat} (h : j < vs.length) :
    Node.element? true (.root (.array vs)) j = some ((Node.root (.array vs)).child true (.index j) vs[j]) := by
  show (vs[j]?).map _ = _
  rw [List.getElem?_eq_getElem h]
  rfl

namespace Query

/-- A query selects the element of an array at an index, counted from the end if it is negative, and nothing if there
is no such element. -/
structure SelectsAt (q : Query) (vs : List Value) (i : Int) : Prop where
  inside : -(vs.length : Int) ≤ i → i < vs.length → ∃ (j : Nat) (v : Value),
    (j : Int) = (if i < 0 then vs.length + i else i) ∧ vs[j]? = some v ∧ q.Selects (.array vs) [([.index j], v)]
  outside : ¬(-(vs.length : Int) ≤ i ∧ i < vs.length) → q.Selects (.array vs) []

/-- A query selects the elements of an array at some indices, in their order. -/
def SelectsAll (q : Query) (vs : List Value) (js : List Int) : Prop :=
  ∃ ps, q.Selects (.array vs) ps ∧
    List.Forall₂ (fun (j : Int) p => ∃ (k : Nat) (v : Value), j = (k : Int) ∧ vs[k]? = some v ∧ p = ([.index k], v))
      js ps

/-- A query selects nothing from a document that is not an array. -/
def SparesOthers (q : Query) : Prop := ∀ doc : Value, doc.isArray = false → q.Selects doc []

variable {vs : List Value} {q : Query} {x : Selector} {doc : Value}

theorem selects_ofPath {ns : List Node} {kind : Kind}
    (h : select .once ⟨doc, true⟩ [x] (.root doc) = pure ⟨ns, kind⟩) :
    (ofPath [x]).Selects doc (ns.map fun n => (n.location, n.value)) :=
  selects_of_search (search_ofPath h)

theorem selectsAt_of_select {i : Int}
    (h : select .once ⟨.array vs, true⟩ [x] (.root (.array vs)) =
      pure ⟨((Node.root (.array vs)).at? true i).toList, .single⟩) : (ofPath [x]).SelectsAt vs i := by
  have hselects := selects_ofPath h
  have hat : (Node.root (.array vs)).at? true i =
      (resolveIndex? i vs.length).bind (Node.element? true (.root (.array vs))) := rfl
  rw [hat] at hselects
  constructor
  · intro hlow hhigh
    obtain ⟨j, hj, hlt, hplace⟩ := resolveIndex?_inside hlow hhigh
    rw [hplace, Option.bind_some, Node.element?_root hlt] at hselects
    exact ⟨j, vs[j], hj, List.getElem?_eq_getElem hlt, hselects⟩
  · intro hout
    rw [resolveIndex?_outside hout] at hselects
    exact hselects

theorem selectsAt_index (i : Int) : (ofPath [.index i]).SelectsAt vs i := selectsAt_of_select (select_index i)

theorem selectsAt_member {i : Int} (hi : fitsInt64 i = true) : (ofPath [.member i.repr]).SelectsAt vs i := by
  refine selectsAt_of_select ?_
  rw [select, follow_repr hi rfl]
  exact select_index i

theorem elements_of_not_array (h : doc.isArray = false) : doc.elements = [] := by
  cases doc <;> first | rfl | cases h

theorem sparesOthers_index (i : Int) : (ofPath [.index i]).SparesOthers := by
  intro doc h
  have hselects : (ofPath [.index i]).Selects doc _ := selects_ofPath (select_index i)
  have hat : (Node.root doc).at? true i = none := by
    rw [Node.at?, Node.root, elements_of_not_array h, List.length_nil, resolveIndex?_outside (by omega)]
    rfl
  rw [hat] at hselects
  exact hselects

/-- The elements at indices of an array are nodes in their order. -/
theorem forall₂_elements {js : List Nat} (h : ∀ j ∈ js, j < vs.length) :
    List.Forall₂ (fun (j : Int) p => ∃ (k : Nat) (v : Value), j = (k : Int) ∧ vs[k]? = some v ∧ p = ([Step.index k], v))
      (js.map fun j : Nat => (j : Int))
      ((js.filterMap (Node.element? true (.root (.array vs)))).map fun n => (n.location, n.value)) := by
  induction js with
  | nil => exact .nil
  | cons j js ih =>
    have hlt := h j List.mem_cons_self
    rw [List.filterMap_cons, Node.element?_root hlt, List.map_cons, List.map_cons]
    exact .cons ⟨j, vs[j], rfl, List.getElem?_eq_getElem hlt, rfl⟩ (ih fun k hk => h k (List.mem_cons_of_mem j hk))

theorem selectsAll_slice {s : Slice} (hs : s.Slices vs.length) :
    (ofPath [.slice s]).SelectsAll vs (s.range vs.length) := by
  refine ⟨_, selects_ofPath (select_slice s), ?_⟩
  rw [← hs.indices_eq]
  exact forall₂_elements hs.indices_lt

theorem sparesOthers_slice {s : Slice} (hs : s.Fits) : (ofPath [.slice s]).SparesOthers := by
  intro doc h
  have hselects : (ofPath [.slice s]).Selects doc _ := selects_ofPath (select_slice s)
  have hindices : s.indices 0 = [] := by
    rw [List.eq_nil_iff_forall_not_mem]
    intro j hj
    exact absurd ((Slice.slices (by decide) hs).indices_lt j hj) (by omega)
  have hsliced : (Node.root doc).sliced true s = [] := by
    rw [Node.sliced, Node.root, elements_of_not_array h, List.length_nil, hindices, List.filterMap_nil]
  rw [hsliced] at hselects
  exact hselects

/-- Indexing and slicing are those of Python. An index selects the element at its place, counted from the end if it is
negative, and nothing if there is none; on an array a member step by the decimal text of an index does the same, in any
path. A slice selects the elements at the indices that the range of all indices has when it is sliced, in this order,
and no arithmetic leaves the 64-bit integers. A step of zero is refused, in any bracket list. From what is not an array
indices and slices select nothing. -/
theorem indexing_and_slicing (env : Env) (hn : vs.length < 0x8000000000000000) :
    (∀ i, fitsInt64 i = true →
      (∃ q, compileWith env ("$[" ++ i.repr ++ "]") = .ok q ∧ q.SelectsAt vs i ∧ q.SparesOthers) ∧
      (∀ text ∈ memberTexts i.repr, ∃ q, compileWith env text = .ok q ∧ q.SelectsAt vs i) ∧
      ∀ t s go kind n, n.value = .array vs →
        follow t s (.member i.repr) go kind n = follow t s (.index i) go kind n) ∧
    (∀ start stop step, Slice.Fits ⟨start, stop, step.getD 1⟩ →
      ∃ q, compileWith env ("$[" ++ boundText start ++ ":" ++ boundText stop ++ ":" ++ boundText step ++ "]") = .ok q ∧
        (step = none → compileWith env ("$[" ++ boundText start ++ ":" ++ boundText stop ++ "]") = .ok q) ∧
        q.SelectsAll vs (Slice.range ⟨start, stop, step.getD 1⟩ vs.length) ∧ q.SparesOthers ∧
        Slice.Slices ⟨start, stop, step.getD 1⟩ vs.length) ∧
    ∀ zero : Integer, zero.value = 0 →
      (∀ start stop : Option Int, (∀ i ∈ start, fitsInt64 i = true) → (∀ i ∈ stop, fitsInt64 i = true) →
        ∃ position, compileWith env ("$[" ++ boundText start ++ ":" ++ boundText stop ++ ":" ++
          String.ofList zero.token.text ++ "]") = .error ⟨.zeroStep, position⟩) ∧
      ∀ (start stop : Option Integer) (t : Token) ts below a k, t.first = ']' ∨ t.first = ',' →
        Syntax.Config.Gives env
          ⟨SliceText.boundTokens start ++ .char ':' :: (SliceText.boundTokens stop ++
            .char ':' :: zero.token :: t :: ts), .element :: below, a, k⟩ (.error .zeroStep) := by
  refine ⟨?_, ?_, ?_⟩
  · intro i hi
    refine ⟨⟨_, compileWith_index hi, selectsAt_index i, sparesOthers_index i⟩, ?_, ?_⟩
    · intro text ht
      exact ⟨_, compileWith_memberTexts i text ht, selectsAt_member hi⟩
    · intro t s go kind n hv
      exact follow_repr hi hv go kind
  · intro start stop step hs
    have hslices := Slice.slices hn hs
    refine ⟨_, compileWith_slice hs, ?_, selectsAll_slice hslices, sparesOthers_slice hs, hslices⟩
    rintro rfl
    exact compileWith_slice_short hs
  · intro zero hz
    refine ⟨?_, ?_⟩
    · intro start stop hstart hstop
      exact compileWith_zeroStep env hstart hstop hz
    · intro start stop t ts below a k ht
      exact gives_zeroStep start stop hz ht

/-- The last element, the elements backwards, and the smallest step that there is. -/
theorem indexing_and_slicing_backwards :
    let vs : List Value := [.null, .bool true, .string "c"]
    vs.length < 0x8000000000000000 ∧
      (∃ q, compileWith (.standard []) "$[-1]" = .ok q ∧ q.Selects (.array vs) [([.index 2], .string "c")]) ∧
      (∃ q, compileWith (.standard []) "$.-1" = .ok q ∧ q.Selects (.array vs) [([.index 2], .string "c")]) ∧
      (∃ q, compileWith (.standard []) "$[:-4:-1]" = .ok q ∧ q.SelectsAll vs [2, 1, 0]) ∧
      (∃ q, compileWith (.standard []) "$[::-9223372036854775808]" = .ok q ∧ q.SelectsAll vs [2]) ∧
      ∃ position, compileWith (.standard []) "$[1::-0]" = .error ⟨.zeroStep, position⟩ := by
  intro vs
  have hn : vs.length < 0x8000000000000000 := by decide
  have hlast : ∀ q : Query, q.SelectsAt vs (-1) → q.Selects (.array vs) [([.index 2], .string "c")] := by
    intro q hq
    obtain ⟨j, v, hj, hv, hs⟩ := hq.inside (by decide) (by decide)
    obtain rfl : j = 2 := Int.ofNat.inj hj
    cases hv
    exact hs
  have hfits : ∀ (stop : Option Int) (step : Int), (∀ b ∈ stop, fitsInt64 b = true) → fitsInt64 step = true →
      step ≠ 0 → Slice.Fits ⟨none, stop, step⟩ := fun stop step hstop hstep hz => ⟨nofun, hstop, hstep, hz⟩
  obtain ⟨hindex, hslice, hzero⟩ := indexing_and_slicing (.standard []) hn
  obtain ⟨⟨q, hq, hat, -⟩, hmember, -⟩ := hindex (-1) (by decide)
  obtain ⟨q', hq', hat'⟩ := hmember "$.-1" (by decide)
  obtain ⟨r, hr, -, hall, -⟩ := hslice none (some (-4)) (some (-1))
    (hfits _ _ (by simp; decide) (by decide) (by decide))
  obtain ⟨r', hr', -, hall', -⟩ := hslice none none (some (-9223372036854775808))
    (hfits _ _ nofun (by decide) (by decide))
  have hrange : Slice.range ⟨none, some (-4), -1⟩ 3 = [2, 1, 0] := by decide
  have hrange' : Slice.range ⟨none, none, -9223372036854775808⟩ 3 = [2] := by decide
  refine ⟨hn, ⟨q, hq, hlast q hat⟩, ⟨q', hq', hlast q' hat'⟩, ⟨r, hr, hrange ▸ hall⟩, ⟨r', hr', hrange' ▸ hall'⟩, ?_⟩
  exact (hzero ⟨'-', ['0'], .inl rfl, List.all_eq_true.1 rfl, 0, rfl⟩ rfl).1 (some 1) none (by simp; decide) nofun

end Query

end PathQuery
