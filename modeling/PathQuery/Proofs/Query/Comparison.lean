import PathQuery.Proofs.Json.Doubles
import PathQuery.Proofs.Query.FilterAlgebra
import PathQuery.Standard

namespace PathQuery

variable {a b : Int} {ks : List Int}

/-- What an operator that compares two integers asks. -/
def BinaryOp.test? : BinaryOp → Option (Int → Int → Bool)
  | eq => some fun a b => decide (a = b)
  | ne => some fun a b => !decide (a = b)
  | lt => some fun a b => decide (a < b)
  | le => some fun a b => decide (a ≤ b)
  | gt => some fun a b => decide (b < a)
  | ge => some fun a b => decide (b ≤ a)
  | _ => none

namespace Value

theorem equals_ofInt (ha : IsWord a) (hb : IsWord b) :
    (ofInt a).equals (ofInt b) = decide (nearestInt a = nearestInt b) :=
  nearestFloat_beq ha hb

theorem compare?_ofInt (ha : IsWord a) (hb : IsWord b) :
    (ofInt a).compare? (ofInt b) = some (compare (nearestInt a) (nearestInt b)) := by
  show (if nearestFloat a < nearestFloat b then some Ordering.lt
    else if nearestFloat a == nearestFloat b then some .eq
    else if nearestFloat b < nearestFloat a then some .gt else none) = _
  rw [nearestFloat_beq ha hb]
  simp only [nearestFloat_lt ha hb, nearestFloat_lt hb ha, decide_eq_true_iff]
  rcases Int.lt_trichotomy (nearestInt a) (nearestInt b) with h | h | h
  · rw [if_pos h, Int.compare_eq_lt.2 h]
  · rw [if_neg (by omega), if_pos h, Int.compare_eq_eq.2 h]
  · rw [if_neg (by omega), if_neg (by omega), if_pos h, Int.compare_eq_gt.2 h]

end Value

namespace BinaryOp

variable {op : BinaryOp} {test : Int → Int → Bool}

/-- Operators ask about what integers are rounded to. -/
theorem apply_ofInt (hop : op.test? = some test) (ha : IsWord a) (hb : IsWord b) :
    op.apply (.ofInt a) (.ofInt b) = .bool (test (nearestInt a) (nearestInt b)) := by
  cases op with
  | eq =>
    cases hop
    exact congrArg Value.bool (Value.equals_ofInt ha hb)
  | ne =>
    cases hop
    exact congrArg (Value.bool !·) (Value.equals_ofInt ha hb)
  | lt =>
    cases hop
    rw [apply, Value.ordered, Value.compare?_ofInt ha hb]
    refine congrArg Value.bool ?_
    rw [Bool.eq_iff_iff, beq_iff_eq, decide_eq_true_iff, Int.compare_eq_lt]
  | le =>
    cases hop
    rw [apply, Value.ordered, Value.compare?_ofInt ha hb]
    refine congrArg Value.bool ?_
    rw [Bool.eq_iff_iff, bne_iff_ne, decide_eq_true_iff, Int.compare_ne_gt]
  | gt =>
    cases hop
    rw [apply, Value.ordered, Value.compare?_ofInt ha hb]
    refine congrArg Value.bool ?_
    rw [Bool.eq_iff_iff, beq_iff_eq, decide_eq_true_iff, Int.compare_eq_gt]
  | ge =>
    cases hop
    rw [apply, Value.ordered, Value.compare?_ofInt ha hb]
    refine congrArg Value.bool ?_
    rw [Bool.eq_iff_iff, bne_iff_ne, decide_eq_true_iff, Int.compare_ne_lt]
  | or | and | add | sub | mul | div => cases hop

/-- About integers that are told apart this is the same. -/
theorem test_nearestInt (hop : op.test? = some test) (h : ToldApart a b) :
    test (nearestInt a) (nearestInt b) = test a b := by
  have heq := h.eq_iff
  have hlt := h.lt_iff
  have hgt := h.symm.lt_iff
  cases op <;> cases hop <;> simp only [heq, hlt, hgt, ← Int.not_lt]

end BinaryOp

/-- Where a program compares what two programs put, whatever else they do. -/
theorem Program.Puts.comparison {s : Setting} {p q : Program} {n : Node} {o o' : Operand} {op : BinaryOp}
    {test : Int → Int → Bool} (h : p.Puts s n o) (h' : q.Puts s n o') (hq : q.height? 0 = some 1)
    (hop : op.test? = some test) (ha : IsWord a) (hb : IsWord b) (hv : (o.toNode n.location).value = .ofInt a)
    (hw : (o'.toNode n.location).value = .ofInt b) :
    Puts s (p ++ q ++ [.binary op]) n (.node (n.compute (.bool (test (nearestInt a) (nearestInt b))))) := by
  have hkeeps : op.keepsLeft? (o.toNode n.location).value = none := by
    cases op <;> cases hop <;> rfl
  have hnode : op.applyNode n (o.toNode n.location) (o'.toNode n.location) =
      n.compute (.bool (test (nearestInt a) (nearestInt b))) := by
    rw [BinaryOp.applyNode, hkeeps, hv, hw, BinaryOp.apply_ofInt hop ha hb]
  rw [← hnode]
  exact h.binary h' hq op

/-- Where all are told apart from it, an integer is found just if it is there. -/
theorem any_nearestInt (h : ∀ k ∈ ks, ToldApart k b) :
    (ks.any fun k => decide (nearestInt k = nearestInt b)) = decide (b ∈ ks) := by
  rw [Bool.eq_iff_iff, List.any_eq_true, decide_eq_true_iff]
  constructor
  · rintro ⟨k, hk, heq⟩
    obtain rfl := (h k hk).eq_iff.1 (of_decide_eq_true heq)
    exact hk
  · intro hb
    exact ⟨b, hb, decide_eq_true rfl⟩

namespace Library

theorem contains_ofInt (hks : ∀ k ∈ ks, IsWord k) (hb : IsWord b) :
    contains (.array (ks.map .ofInt)) (.ofInt b) =
      .ok (.bool (ks.any fun k => decide (nearestInt k = nearestInt b))) := by
  have hany : (ks.map Value.ofInt).any (·.equals (.ofInt b)) =
      ks.any fun k => decide (nearestInt k = nearestInt b) := by
    rw [List.any_map, Bool.eq_iff_iff, List.any_eq_true, List.any_eq_true]
    refine exists_congr fun k => and_congr_right fun hk => ?_
    rw [Function.comp_apply, Value.equals_ofInt (hks k hk) hb]
  rw [contains, hany]

/-- The numbers of an array of integers. -/
theorem onNumbers_ofInt (name : String) (f : List Number → Value) (ks : List Int) :
    onNumbers name f (.array (ks.map .ofInt)) = .ok (f (ks.map .int)) := by
  have hnumbers : (ks.map Value.ofInt).mapM Value.asNumber? = some (ks.map .int) := by
    induction ks with
    | nil => rfl
    | cons k ks ih =>
      rw [List.map_cons, List.mapM_cons, ih]
      rfl
  rw [onNumbers, hnumbers]

section extreme

variable {key : Int → Int} {m : Int}

/-- The first of some integers whose key is least. -/
def IsFirstLeast (key : Int → Int) (ks : List Int) (m : Int) : Prop :=
  ∃ before behind, ks = before ++ m :: behind ∧ (∀ a ∈ before, key m < key a) ∧ ∀ a ∈ behind, key m ≤ key a

theorem IsFirstLeast.mem (h : IsFirstLeast key ks m) : m ∈ ks := by
  obtain ⟨before, behind, rfl, -⟩ := h
  simp

theorem IsFirstLeast.le (h : IsFirstLeast key ks m) : ∀ a ∈ ks, key m ≤ key a := by
  obtain ⟨before, behind, rfl, hbefore, hbehind⟩ := h
  intro a ha
  rcases List.mem_append.1 ha with ha | ha
  · exact Int.le_of_lt (hbefore a ha)
  rcases List.mem_cons.1 ha with rfl | ha
  · exact Int.le_refl _
  · exact hbehind a ha

/-- One more integer behind the others replaces the first least if its key is less. -/
theorem IsFirstLeast.concat (h : IsFirstLeast key ks m) (a : Int) :
    IsFirstLeast key (ks ++ [a]) (if key a < key m then a else m) := by
  split
  · next hlt =>
    refine ⟨ks, [], rfl, fun b hb => ?_, nofun⟩
    exact Int.lt_of_lt_of_le hlt (h.le b hb)
  · next hge =>
    obtain ⟨before, behind, rfl, hbefore, hbehind⟩ := h
    refine ⟨before, behind ++ [a], by simp, hbefore, fun b hb => ?_⟩
    rcases List.mem_append.1 hb with hb | hb
    · exact hbehind b hb
    · obtain rfl := List.mem_singleton.1 hb
      exact Int.not_lt.1 hge

/-- Where doubles are compared by a key of their integers, this is what is found. -/
theorem extreme_ofInt (better : Float → Float → Bool) (key : Int → Int) (hbetter : ∀ a b, IsWord a → IsWord b →
      better (nearestFloat a) (nearestFloat b) = decide (key a < key b)) (hne : ks ≠ [])
    (hks : ∀ a ∈ ks, IsWord a) : ∃ m, IsFirstLeast key ks m ∧ extreme better (ks.map .int) = .ofInt m := by
  obtain ⟨k, ks, rfl⟩ := List.exists_cons_of_ne_nil hne
  have hfold : ∀ (later earlier : List Int) (m : Int), IsFirstLeast key earlier m → IsWord m →
      (∀ a ∈ later, IsWord a) → ∃ m', IsFirstLeast key (earlier ++ later) m' ∧
        (later.map Number.int).foldl (fun best n => if better n.toFloat best.toFloat then n else best) (.int m) =
          .int m' := by
    intro later
    induction later with
    | nil =>
      intro earlier m h _ _
      exact ⟨m, by rwa [List.append_nil], rfl⟩
    | cons a later ih =>
      intro earlier m h hm hlater
      have ha : IsWord a := hlater a (by simp)
      have hword : IsWord (if key a < key m then a else m) := by
        split
        · exact ha
        · exact hm
      obtain ⟨m', hm', hfold⟩ := ih (earlier ++ [a]) _ (h.concat a) hword fun b hb => hlater b (by simp [hb])
      refine ⟨m', by simpa using hm', ?_⟩
      rw [← hfold, List.map_cons, List.foldl_cons]
      congr 1
      show (if better (nearestFloat a) (nearestFloat m) = true then Number.int a else .int m) = _
      rw [hbetter a m ha hm]
      split <;> simp_all
  obtain ⟨m, hm, hfold⟩ := hfold ks [k] k ⟨[], [], rfl, nofun, nofun⟩ (hks k (by simp))
    fun a ha => hks a (by simp [ha])
  exact ⟨m, hm, congrArg Value.number hfold⟩

theorem min_ofInt (hne : ks ≠ []) (hks : ∀ k ∈ ks, IsWord k) :
    ∃ m, IsFirstLeast nearestInt ks m ∧ min (.array (ks.map .ofInt)) = .ok (.ofInt m) := by
  obtain ⟨m, hm, hmin⟩ := extreme_ofInt (· < ·) nearestInt
    (fun a b ha hb => decide_eq_decide.2 (nearestFloat_lt ha hb)) hne hks
  exact ⟨m, hm, by rw [min, onNumbers_ofInt, hmin]⟩

theorem max_ofInt (hne : ks ≠ []) (hks : ∀ k ∈ ks, IsWord k) :
    ∃ m, IsFirstLeast (-nearestInt ·) ks m ∧ max (.array (ks.map .ofInt)) = .ok (.ofInt m) := by
  obtain ⟨m, hm, hmax⟩ := extreme_ofInt (fun x y => y < x) (-nearestInt ·)
    (fun a b ha hb => decide_eq_decide.2 ((nearestFloat_lt hb ha).trans (by omega))) hne hks
  exact ⟨m, hm, by rw [max, onNumbers_ofInt, hmax]⟩

end extreme

end Library

/-- Operators and functions on integers of 64 bits. What they answer is true of what the integers are rounded to, in
every program that compares them, and true of the integers that are told apart: of all up to `2 ^ 53`, and of all that
are more than `2 ^ 11` apart. Two integers are found equal wrongly just if they are not told apart. -/
theorem integers_compared_rounded (hks : ∀ k ∈ ks, IsWord k) (ha : IsWord a) (hb : IsWord b) :
    (∀ (op : BinaryOp) (test : Int → Int → Bool), op.test? = some test →
      op.apply (.ofInt a) (.ofInt b) = .bool (test (nearestInt a) (nearestInt b)) ∧
      (ToldApart a b → op.apply (.ofInt a) (.ofInt b) = .bool (test a b)) ∧
      ∀ (s : Setting) (p q : Program) (n : Node) (o o' : Operand), p.Puts s n o → q.Puts s n o' →
        q.height? 0 = some 1 → (o.toNode n.location).value = .ofInt a → (o'.toNode n.location).value = .ofInt b →
        Program.Puts s (p ++ q ++ [.binary op]) n (.node (n.compute (op.apply (.ofInt a) (.ofInt b))))) ∧
    (Library.contains (.array (ks.map .ofInt)) (.ofInt b) =
        .ok (.bool (ks.any fun k => decide (nearestInt k = nearestInt b))) ∧
      ((∀ k ∈ ks, ToldApart k b) →
        Library.contains (.array (ks.map .ofInt)) (.ofInt b) = .ok (.bool (decide (b ∈ ks))))) ∧
    (ks ≠ [] → ∃ m m',
      Library.min (.array (ks.map .ofInt)) = .ok (.ofInt m) ∧ Library.IsFirstLeast nearestInt ks m ∧
      Library.max (.array (ks.map .ofInt)) = .ok (.ofInt m') ∧ Library.IsFirstLeast (-nearestInt ·) ks m' ∧
      ((∀ j ∈ ks, ∀ k ∈ ks, ToldApart j k) → ∀ k ∈ ks, m ≤ k ∧ k ≤ m')) ∧
    (BinaryOp.eq.apply (.ofInt a) (.ofInt b) = .bool (decide (a = b)) ↔ ToldApart a b) ∧
    (a.natAbs ≤ 2 ^ 53 ∧ b.natAbs ≤ 2 ^ 53 ∨ 2 ^ 11 < (a - b).natAbs → ToldApart a b) := by
  refine ⟨?_, ?_, ?_, ?_, ?_⟩
  · intro op test hop
    refine ⟨BinaryOp.apply_ofInt hop ha hb, fun h => ?_, ?_⟩
    · rw [BinaryOp.apply_ofInt hop ha hb, BinaryOp.test_nearestInt hop h]
    · intro s p q n o o' hp hq hheight hv hw
      rw [BinaryOp.apply_ofInt hop ha hb]
      exact hp.comparison hq hheight hop ha hb hv hw
  · refine ⟨Library.contains_ofInt hks hb, fun h => ?_⟩
    rw [Library.contains_ofInt hks hb, any_nearestInt h]
  · intro hne
    obtain ⟨m, hm, hmin⟩ := Library.min_ofInt hne hks
    obtain ⟨m', hm', hmax⟩ := Library.max_ofInt hne hks
    refine ⟨m, m', hmin, hm, hmax, hm', fun hapart k hk => ?_⟩
    have hle := hm.le k hk
    have hle' := hm'.le k hk
    have hlt := (hapart k hk m hm.mem).lt_iff
    have hlt' := (hapart m' hm'.mem k hk).lt_iff
    omega
  · rw [BinaryOp.apply_ofInt (rfl : BinaryOp.test? .eq = some fun a b => decide (a = b)) ha hb,
      Value.bool.injEq, decide_eq_decide, toldApart_iff]
  · rintro (⟨hsmall, hsmall'⟩ | hdistant)
    · exact toldApart_of_small hsmall hsmall'
    · exact toldApart_of_distant ha hb hdistant

/-- The least and the greatest of the integers are told apart, and each from an integer between them. -/
theorem integers_compared_rounded_extremes :
    BinaryOp.lt.apply (.ofInt (-2 ^ 63)) (.ofInt (2 ^ 64 - 1)) = .bool true ∧
      Library.contains (.array [.ofInt (-2 ^ 63), .ofInt (2 ^ 63)]) (.ofInt (2 ^ 64 - 1)) = .ok (.bool false) ∧
      Library.min (.array [.ofInt (-2 ^ 63), .ofInt (2 ^ 63)]) = .ok (.ofInt (-2 ^ 63)) ∧
      Library.max (.array [.ofInt (-2 ^ 63), .ofInt (2 ^ 63)]) = .ok (.ofInt (2 ^ 63)) := by
  have ha : IsWord (-2 ^ 63) := ⟨by decide, by decide⟩
  have hb : IsWord (2 ^ 64 - 1) := ⟨by decide, by decide⟩
  have hc : IsWord (2 ^ 63) := ⟨by decide, by decide⟩
  have hks : ∀ k ∈ [(-2 ^ 63 : Int), 2 ^ 63], IsWord k := List.forall_mem_cons.2 ⟨ha, List.forall_mem_singleton.2 hc⟩
  obtain ⟨hcompare, hcontains, hextremes, -, happart⟩ := integers_compared_rounded hks ha hb
  have hseek : ∀ k ∈ [(-2 ^ 63 : Int), 2 ^ 63], ToldApart k (2 ^ 64 - 1) :=
    List.forall_mem_cons.2 ⟨happart (.inr (by decide)),
      List.forall_mem_singleton.2 (toldApart_of_distant hc hb (by decide))⟩
  have hpairs : ∀ j ∈ [(-2 ^ 63 : Int), 2 ^ 63], ∀ k ∈ [(-2 ^ 63 : Int), 2 ^ 63], ToldApart j k := by
    intro j hj k hk
    simp only [List.mem_cons, List.not_mem_nil, or_false] at hj hk
    rcases hj with rfl | rfl <;> rcases hk with rfl | rfl
    · exact .inl rfl
    · exact toldApart_of_distant ha hc (by decide)
    · exact toldApart_of_distant hc ha (by decide)
    · exact .inl rfl
  obtain ⟨m, m', hmin, hm, hmax, hm', hbound⟩ := hextremes (by simp)
  obtain ⟨hleast, hgreatest⟩ : m = -2 ^ 63 ∧ m' = 2 ^ 63 := by
    have hfirst := hbound hpairs (-2 ^ 63) (by simp)
    have hlast := hbound hpairs (2 ^ 63) (by simp)
    have hmem := hm.mem
    have hmem' := hm'.mem
    simp only [List.mem_cons, List.not_mem_nil, or_false] at hmem hmem'
    omega
  rw [hleast] at hmin
  rw [hgreatest] at hmax
  exact ⟨(hcompare .lt _ rfl).2.1 (happart (.inr (by decide))), hcontains.2 hseek, hmin, hmax⟩

/-- Above `2 ^ 53` an integer is taken for its neighbour: by `==`, by `contains`, and by `min`, which keeps the greater
one because it comes first. -/
theorem neighbours_taken_for_equal :
    BinaryOp.eq.apply (.ofInt 9007199254740993) (.ofInt 9007199254740992) = .bool true ∧
      Library.contains (.array [.ofInt 9007199254740993]) (.ofInt 9007199254740992) = .ok (.bool true) ∧
      Library.min (.array [.ofInt 9007199254740993, .ofInt 9007199254740992]) = .ok (.ofInt 9007199254740993) ∧
      ∃ q, Query.compileWith (.standard []) "$[?(@ == 9007199254740992)]" = .ok q ∧
        (q.matchesOf .plain (.array [.ofInt 9007199254740993])).result =
          .ok [([.index 0], .ofInt 9007199254740993)] := by
  refine ⟨rfl, rfl, rfl, ⟨[.root, .path [.root 0, .filter [.current, .path [.current],
    .literal (.ofInt 9007199254740992), .binary .eq]]]⟩, ?_, rfl⟩
  exact Query.compileWith_of_runFor (k := 60) rfl

end PathQuery
