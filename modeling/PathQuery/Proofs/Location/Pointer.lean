import PathQuery.Proofs.Location.Text

namespace PathQuery

namespace Pointer

/-- Replaces what matches `old`, which is not empty, from left to right. -/
def replaceAll (old new : List Char) : List Char → List Char
  | [] => []
  | c :: cs =>
    if old.isPrefixOf (c :: cs) then new ++ replaceAll old new (cs.drop (old.length - 1))
    else c :: replaceAll old new cs
termination_by cs => cs.length
decreasing_by all_goals simp +arith

/-- The tokens of a pointer, each of which stands behind a slash. -/
def tokens? : List Char → Option (List (List Char))
  | [] => some []
  | c :: cs => if c = '/' then some (cs.splitOn '/') else none

/-- What a token stands for: `~1` is a slash, and then `~0` is a tilde. -/
def unescape (token : List Char) : List Char := replaceAll ['~', '0'] ['~'] (replaceAll ['~', '1'] ['/'] token)

/-- An index in decimal digits, without zeros before it. -/
def index? (token : List Char) : Option Nat :=
  if token ≠ [] ∧ token.all Char.isDigit ∧ (token.head? = some '0' → token = ['0']) then some (natOfDigits token)
  else none

/-- The child that a token leads to: an element by its index, or a member by its name. -/
def child? (token : List Char) : Value → Option Value
  | .array vs => (index? token).bind (vs[·]?)
  | .object ms => Members.find? (String.ofList token) ms
  | _ => none

/-- The node of a document that a pointer leads to. -/
def resolve? (pointer : String) (doc : Value) : Option Value :=
  (tokens? pointer.toList).bind fun tokens => tokens.foldlM (fun v token => child? (unescape token) v) doc

section replaceAll

variable {a b c : Char} {old new cs : List Char}

theorem replaceAll_cons_of_ne (h : c ≠ a) :
    replaceAll (a :: old) new (c :: cs) = c :: replaceAll (a :: old) new cs := by
  have hp : ¬(a :: old).isPrefixOf (c :: cs) = true := by simp [List.isPrefixOf, Ne.symm h]
  rw [replaceAll, if_neg hp]

theorem replaceAll_match (a : Char) (old new cs : List Char) :
    replaceAll (a :: old) new (a :: old ++ cs) = new ++ replaceAll (a :: old) new cs := by
  have hp : (a :: old).isPrefixOf (a :: old ++ cs) = true := by simp [List.isPrefixOf_iff_prefix]
  rw [List.cons_append] at hp ⊢
  rw [replaceAll, if_pos hp]
  simp

theorem replaceAll_pair_of_ne (h : c ≠ b) :
    replaceAll [a, b] new (a :: c :: cs) = a :: replaceAll [a, b] new (c :: cs) := by
  have hp : ¬[a, b].isPrefixOf (a :: c :: cs) = true := by simp [List.isPrefixOf, Ne.symm h]
  rw [replaceAll, if_neg hp]

theorem replaceAll_of_not_mem (h : a ∉ cs) : replaceAll (a :: old) new cs = cs := by
  induction cs with
  | nil => rw [replaceAll]
  | cons c cs ih =>
    rw [List.mem_cons, not_or] at h
    rw [replaceAll_cons_of_ne (Ne.symm h.1), ih h.2]

theorem replaceAll_single (a : Char) (new cs : List Char) :
    replaceAll [a] new cs = cs.flatMap fun c => if c = a then new else [c] := by
  induction cs with
  | nil => rw [replaceAll, List.flatMap_nil]
  | cons c cs ih =>
    rw [List.flatMap_cons, ← ih]
    split
    · next h =>
      subst h
      exact replaceAll_match c [] new cs
    · next h => exact replaceAll_cons_of_ne h

end replaceAll

/-- A name is escaped by replacing its tildes first and its slashes then. -/
theorem pointerToken_name (s : String) : (Step.name s).pointerToken.toList =
    replaceAll ['/'] ['~', '1'] (replaceAll ['~'] ['~', '0'] s.toList) := by
  rw [replaceAll_single, replaceAll_single, List.flatMap_assoc]
  simp only [Step.pointerToken, String.toList_ofList]
  congr 1
  funext c
  by_cases ht : c = '~'
  · simp [ht]
  · simp [ht]

/-- Of an escaped name, the escapes of slashes are undone without touching those of tildes. -/
theorem replaceAll_slashes (cs : List Char) : replaceAll ['~', '1'] ['/'] (cs.flatMap fun c =>
      if c = '~' then ['~', '0'] else if c = '/' then ['~', '1'] else [c]) =
    cs.flatMap fun c => if c = '~' then ['~', '0'] else [c] := by
  induction cs with
  | nil => rw [List.flatMap_nil, List.flatMap_nil, replaceAll]
  | cons c cs ih =>
    rw [List.flatMap_cons, List.flatMap_cons, ← ih]
    split
    · exact (replaceAll_pair_of_ne (by decide)).trans (congrArg ('~' :: ·) (replaceAll_cons_of_ne (by decide)))
    split
    · next hs =>
      subst hs
      exact replaceAll_match '~' ['1'] ['/'] _
    · next ht _ => exact replaceAll_cons_of_ne ht

theorem replaceAll_tildes (cs : List Char) :
    replaceAll ['~', '0'] ['~'] (cs.flatMap fun c => if c = '~' then ['~', '0'] else [c]) = cs := by
  induction cs with
  | nil => rw [List.flatMap_nil, replaceAll]
  | cons c cs ih =>
    rw [List.flatMap_cons]
    split
    · next ht =>
      subst ht
      exact (replaceAll_match '~' ['0'] ['~'] _).trans (congrArg ('~' :: ·) ih)
    · next ht => exact (replaceAll_cons_of_ne ht).trans (congrArg (c :: ·) ih)

theorem unescape_name (s : String) : unescape (Step.name s).pointerToken.toList = s.toList := by
  rw [unescape, Step.pointerToken, String.toList_ofList, replaceAll_slashes, replaceAll_tildes]

theorem pointerToken_index (i : Nat) : (Step.index i).pointerToken.toList = Nat.toDigits 10 i := by
  simp [Step.pointerToken]

theorem not_mem_toDigits {c : Char} (hc : c.isDigit = false) (i : Nat) : c ∉ Nat.toDigits 10 i := by
  intro h
  rw [isDigit_of_mem_toDigits h] at hc
  cases hc

theorem unescape_index (i : Nat) : unescape (Step.index i).pointerToken.toList = Nat.toDigits 10 i := by
  have htilde : '~' ∉ Nat.toDigits 10 i := not_mem_toDigits (by decide) i
  rw [unescape, pointerToken_index, replaceAll_of_not_mem htilde, replaceAll_of_not_mem htilde]

theorem index?_toDigits (i : Nat) : index? (Nat.toDigits 10 i) = some i := by
  have hdigits : (Nat.toDigits 10 i).all Char.isDigit = true :=
    List.all_eq_true.2 fun c hc => isDigit_of_mem_toDigits hc
  have hzero : (Nat.toDigits 10 i).head? = some '0' → Nat.toDigits 10 i = ['0'] := by
    intro h
    rw [eq_zero_of_head?_toDigits i h]
    rfl
  rw [index?, if_pos ⟨Nat.toDigits_ne_nil, hdigits, hzero⟩, natOfDigits_toDigits]

/-- Only an array has a child at an index, and only an object one of a name. -/
theorem child?_cases {s : Step} {v w : Value} (h : s.child? v = some w) :
    (∃ i vs, s = .index i ∧ v = .array vs ∧ vs[i]? = some w) ∨
      ∃ name ms, s = .name name ∧ v = .object ms ∧ Members.find? name ms = some w := by
  cases s with
  | index i =>
    cases v with
    | array vs => exact .inl ⟨i, vs, rfl, rfl, h⟩
    | _ => simp [Step.child?, Value.element?, Value.elements] at h
  | name t =>
    cases v with
    | object ms => exact .inr ⟨t, ms, rfl, rfl, h⟩
    | _ => simp [Step.child?, Value.member?, Value.members] at h

/-- A step that leads to a child is written as a token that leads to it. -/
theorem child?_pointerToken {s : Step} {v w : Value} (h : s.child? v = some w) :
    child? (unescape s.pointerToken.toList) v = some w := by
  obtain ⟨i, vs, rfl, rfl, hw⟩ | ⟨name, ms, rfl, rfl, hw⟩ := child?_cases h
  · rw [unescape_index, child?, index?_toDigits]
    exact hw
  · rw [unescape_name, child?, String.ofList_toList]
    exact hw

/-- The kind of the container tells an index from a name that is written in the same way. -/
theorem eq_of_pointerToken {s t : Step} {v u w : Value} (hs : s.child? v = some u) (ht : t.child? v = some w)
    (h : s.pointerToken = t.pointerToken) : s = t := by
  have htoken := congrArg (fun token : String => unescape token.toList) h
  obtain ⟨i, vs, rfl, rfl, -⟩ | ⟨name, ms, rfl, rfl, -⟩ := child?_cases hs
  · obtain ⟨j, vs', rfl, -, -⟩ | ⟨name, ms, -, hv, -⟩ := child?_cases ht
    · have hi : index? (Nat.toDigits 10 i) = index? (Nat.toDigits 10 j) := by
        simpa only [unescape_index] using congrArg index? htoken
      rw [index?_toDigits, index?_toDigits] at hi
      rw [Option.some.inj hi]
    · cases hv
  · obtain ⟨j, vs, -, hv, -⟩ | ⟨name', ms', rfl, -, -⟩ := child?_cases ht
    · cases hv
    · simp only [unescape_name] at htoken
      rw [String.toList_injective htoken]

/-- No token holds a slash. -/
theorem slash_not_mem_pointerToken (s : Step) : '/' ∉ s.pointerToken.toList := by
  cases s with
  | index i =>
    rw [pointerToken_index]
    exact not_mem_toDigits (by decide) i
  | name s =>
    rw [Step.pointerToken, String.toList_ofList, List.mem_flatMap]
    rintro ⟨c, -, hc⟩
    split at hc
    · simp at hc
    split at hc
    · simp at hc
    · next hs => exact hs (List.mem_singleton.1 hc).symm

theorem pointer_cons (s : Step) (l : Location) : (Location.pointer (s :: l)).toList =
    '/' :: ['/'].intercalate ((s :: l).map (·.pointerToken.toList)) := by
  induction l generalizing s with
  | nil => simp [Location.pointer]
  | cons t l ih =>
    have hsplit : (Location.pointer (s :: t :: l)).toList =
        '/' :: (s.pointerToken.toList ++ (Location.pointer (t :: l)).toList) := by
      simp [Location.pointer]
    rw [hsplit, ih]
    simp [List.intercalate]

/-- Cutting a pointer at its slashes gives back its tokens. -/
theorem tokens?_pointer (l : Location) : tokens? l.pointer.toList = some (l.map (·.pointerToken.toList)) := by
  cases l with
  | nil => rfl
  | cons s l =>
    rw [pointer_cons, tokens?, if_pos rfl, List.splitOn_intercalate]
    · intro token htoken
      obtain ⟨t, -, rfl⟩ := List.mem_map.1 htoken
      exact slash_not_mem_pointerToken t
    · simp

/-- Token by token, a pointer follows the steps of its location. -/
theorem resolve?_pointer {l : Location} {doc v : Value} (h : Location.get? l doc = some v) :
    resolve? l.pointer doc = some v := by
  rw [resolve?, tokens?_pointer, Option.bind_some]
  induction l generalizing doc with
  | nil => exact h
  | cons s l ih =>
    obtain ⟨w, hw, hl⟩ := Option.bind_eq_some_iff.1 h
    rw [List.map_cons, List.foldlM_cons, child?_pointerToken hw]
    exact ih hl

theorem eq_of_pointerTokens {l m : Location} {doc v w : Value} (hl : Location.get? l doc = some v)
    (hm : Location.get? m doc = some w) (h : l.map Step.pointerToken = m.map Step.pointerToken) : l = m := by
  induction l generalizing m doc with
  | nil => exact (List.map_eq_nil_iff.1 h.symm).symm
  | cons s l ih =>
    cases m with
    | nil => cases h
    | cons t m =>
      obtain ⟨hst, hlm⟩ := List.cons.inj h
      obtain ⟨u, hu, hlu⟩ := Option.bind_eq_some_iff.1 hl
      obtain ⟨u', hu', hmu⟩ := Option.bind_eq_some_iff.1 hm
      obtain rfl := eq_of_pointerToken hu hu' hst
      rw [Option.some.inj (hu.symm.trans hu')] at hlu
      rw [ih hlu hmu hlm]

theorem eq_of_pointer {l m : Location} {doc v w : Value} (hl : Location.get? l doc = some v)
    (hm : Location.get? m doc = some w) (h : l.pointer = m.pointer) : l = m := by
  have htokens : l.map (·.pointerToken.toList) = m.map (·.pointerToken.toList) := by
    have hpointer := tokens?_pointer l
    rw [h, tokens?_pointer m] at hpointer
    exact (Option.some.inj hpointer).symm
  have hread := congrArg (List.map String.ofList) htokens
  rw [List.map_map, List.map_map] at hread
  refine eq_of_pointerTokens hl hm ?_
  simpa [Function.comp_def] using hread

end Pointer

/-- The pointer of a node leads to this node, and different nodes of a document have different pointers. -/
theorem Location.pointers_lead_back (doc : Value) :
    (∀ (l : Location) (v : Value), get? l doc = some v → Pointer.resolve? l.pointer doc = some v) ∧
      ∀ l m : Location, (get? l doc).isSome = true → (get? m doc).isSome = true → l.pointer = m.pointer → l = m := by
  refine ⟨fun l v => Pointer.resolve?_pointer, ?_⟩
  intro l m hl hm h
  obtain ⟨v, hv⟩ := Option.isSome_iff_exists.1 hl
  obtain ⟨w, hw⟩ := Option.isSome_iff_exists.1 hm
  exact Pointer.eq_of_pointer hv hw h

/-- Below a name that holds a slash and an index, a name that is written like an escape. -/
theorem Location.pointers_lead_back_escaped :
    let doc : Value := .object [("a/b", .array [.object [("~1", .bool true)], .null])]
    let l : Location := [.name "a/b", .index 0, .name "~1"]
    l.pointer = "/a~1b/0/~01" ∧ get? l doc = some (.bool true) ∧
      Pointer.resolve? "/a~1b/0/~01" doc = some (.bool true) ∧
      ∀ m, (get? m doc).isSome = true → m.pointer = "/a~1b/0/~01" → m = l := by
  intro doc l
  have hp : l.pointer = "/a~1b/0/~01" := by decide
  have hl : get? l doc = some (.bool true) := rfl
  refine ⟨hp, hl, ?_, ?_⟩
  · rw [← hp]
    exact (pointers_lead_back doc).1 l (.bool true) hl
  · intro m hm hpointer
    exact (pointers_lead_back doc).2 m l hm rfl (hpointer.trans hp.symm)

end PathQuery
