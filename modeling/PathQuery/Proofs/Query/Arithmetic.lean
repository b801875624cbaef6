import PathQuery.Proofs.Query.Comparison
import PathQuery.Proofs.Query.Ranges

namespace PathQuery

variable {a b k n one : Int} {ks : List Int}

theorem int64?_eq_some_iff : int64? n = some k ↔ k = n ∧ fitsInt64 n = true := by
  constructor
  · intro h
    refine ⟨eq_of_int64? h, ?_⟩
    rw [← eq_of_int64? h]
    exact fitsInt64_of_int64? h
  · rintro ⟨rfl, h⟩
    rw [int64?, if_pos h]

theorem int64?_of_fits (h : fitsInt64 n = true) : int64? n = some n := int64?_eq_some_iff.2 ⟨rfl, h⟩

theorem isWord_of_fitsInt64 (h : fitsInt64 a = true) : IsWord a := by
  simp only [fitsInt64, Bool.and_eq_true, decide_eq_true_eq] at h
  constructor <;> omega

/-- No integer but zero is rounded to zero. -/
theorem nearestFloat_beq_zero (hb : IsWord b) : (nearestFloat b == 0) = decide (b = 0) := by
  have hzero : IsWord 0 := ⟨by decide, by decide⟩
  have happart : ToldApart b 0 := by
    rcases Nat.le_total b.natAbs (2 ^ 53) with hsmall | hlarge
    · exact toldApart_of_small hsmall (by decide)
    · exact toldApart_of_distant hb hzero (by omega)
  have hfloat : (0 : Float) = nearestFloat 0 := rfl
  rw [hfloat, nearestFloat_beq hb hzero, decide_eq_decide]
  exact happart.eq_iff

namespace Value

/-- A value that is an integer if this is exact, and otherwise another value that is no integer. -/
def ExactIf (exact : Prop) (n : Int) (other v : Value) : Prop :=
  (exact → v = ofInt n) ∧ (¬exact → v = other ∧ ∀ k, v ≠ ofInt k)

theorem ofFloat_ne_ofInt (x : Float) (k : Int) : ofFloat x ≠ ofInt k := by
  unfold ofFloat
  split <;> nofun

/-- The integer if it is a signed word of 64 bits, and a double otherwise. -/
theorem exactIf_int64? (n : Int) (x : Float) {v : Value}
    (h : v = match int64? n with
      | some k => ofInt k
      | none => ofFloat x) : ExactIf (fitsInt64 n = true) n (ofFloat x) v := by
  subst h
  constructor
  · intro hn
    rw [int64?_of_fits hn]
  · intro hn
    rw [int64?, if_neg hn]
    exact ⟨rfl, ofFloat_ne_ofInt x⟩

theorem arithmetic_exactIf (ints : Int → Int → Int) (floats : Float → Float → Float) (ha : fitsInt64 a = true)
    (hb : fitsInt64 b = true) : ExactIf (fitsInt64 (ints a b) = true) (ints a b)
      (ofFloat (floats (nearestFloat a) (nearestFloat b))) (arithmetic ints floats (ofInt a) (ofInt b)) := by
  apply exactIf_int64?
  simp only [arithmetic, ofInt, Number.toInt64?, int64?_of_fits ha, int64?_of_fits hb]
  rfl

theorem negate_exactIf (ha : fitsInt64 a = true) :
    ExactIf (fitsInt64 (-a) = true) (-a) (ofFloat (-nearestFloat a)) (negate (ofInt a)) := by
  apply exactIf_int64?
  simp only [negate, ofInt, Number.toInt64?, int64?_of_fits ha]
  rfl

/-- A quotient is exact if the divisor is not zero and divides, and the quotient is a signed word of 64 bits. -/
def Divides (a b : Int) : Prop := b ≠ 0 ∧ b ∣ a ∧ fitsInt64 (a / b) = true

theorem exactQuotient?_of_divides (h : Divides a b) : exactQuotient? a b = some (a / b) := by
  obtain ⟨hb, hdvd, hfits⟩ := h
  have hmod : a.tmod b = 0 := Int.tmod_eq_zero_of_dvd hdvd
  have hdiv : a.tdiv b = a / b := Int.tdiv_eq_ediv_of_dvd hdvd
  rw [exactQuotient?, if_pos ⟨hb, hmod⟩, hdiv, int64?_of_fits hfits]

theorem exactQuotient?_of_not_divides (h : ¬Divides a b) : exactQuotient? a b = none := by
  rw [exactQuotient?]
  split
  · next hq =>
    have hdvd : b ∣ a := Int.dvd_of_tmod_eq_zero hq.2
    have hbeyond : ¬fitsInt64 (a / b) = true := fun hfits => h ⟨hq.1, hdvd, hfits⟩
    rw [Int.tdiv_eq_ediv_of_dvd hdvd, int64?, if_neg hbeyond]
  · rfl

theorem divide_exactIf (ha : fitsInt64 a = true) (hb : fitsInt64 b = true) :
    ExactIf (Divides a b) (a / b) (if b = 0 then null else ofFloat (nearestFloat a / nearestFloat b))
      (divide (ofInt a) (ofInt b)) := by
  have hdivide : divide (ofInt a) (ofInt b) = match exactQuotient? a b with
      | some k => ofInt k
      | none => if nearestFloat b == 0 then null else ofFloat (nearestFloat a / nearestFloat b) := by
    simp only [divide, ofInt, Number.toInt64?, int64?_of_fits ha, int64?_of_fits hb]
    rfl
  rw [hdivide, nearestFloat_beq_zero (isWord_of_fitsInt64 hb)]
  constructor
  · intro h
    rw [exactQuotient?_of_divides h]
  · intro h
    rw [exactQuotient?_of_not_divides h]
    simp only [decide_eq_true_eq, true_and]
    split
    · nofun
    · exact ofFloat_ne_ofInt _

end Value

namespace Library

open Value (ExactIf)

theorem abs_exactIf (ha : fitsInt64 a = true) : ∃ v, abs (.ofInt a) = .ok v ∧
    ExactIf (fitsInt64 a.natAbs = true) a.natAbs (.ofFloat (nearestFloat a).abs) v := by
  refine ⟨absNumber (.int a), rfl, Value.exactIf_int64? _ _ ?_⟩
  have hword : (Number.int a).toInt64? = some a := int64?_of_fits ha
  rw [absNumber, hword, Option.bind_some]
  generalize int64? a.natAbs = exact
  cases exact with
  | none => rfl
  | some k => rfl

/-- All that is combined from left to right is a signed word of 64 bits. -/
def StaysWord (ints : Int → Int → Int) (one : Int) (ks : List Int) : Prop :=
  ∀ part, part <+: ks → fitsInt64 (part.foldl ints one) = true

theorem staysWord_cons {ints : Int → Int → Int} :
    StaysWord ints one (k :: ks) ↔ fitsInt64 one = true ∧ StaysWord ints (ints one k) ks := by
  constructor
  · intro h
    refine ⟨h [] List.nil_prefix, fun part hp => ?_⟩
    exact h (k :: part) (List.cons_prefix_cons.2 ⟨rfl, hp⟩)
  · rintro ⟨hone, h⟩ part hp
    rcases List.prefix_cons_iff.1 hp with rfl | ⟨others, rfl, hothers⟩
    · exact hone
    · exact h others hothers

/-- Going on as long as every result is a word comes to the end just if all are. -/
theorem foldlM_int64? (ints : Int → Int → Int) (hone : fitsInt64 one = true) (hks : ∀ k ∈ ks, fitsInt64 k = true) :
    (StaysWord ints one ks → (ks.map Number.int).foldlM
        (fun acc n => n.toInt64?.bind fun k => int64? (ints acc k)) one = some (ks.foldl ints one)) ∧
      (¬StaysWord ints one ks → (ks.map Number.int).foldlM
        (fun acc n => n.toInt64?.bind fun k => int64? (ints acc k)) one = none) := by
  induction ks generalizing one with
  | nil =>
    refine ⟨fun _ => rfl, fun h => absurd ?_ h⟩
    intro part hp
    rw [List.prefix_nil.1 hp]
    exact hone
  | cons k ks ih =>
    obtain ⟨hk, hks⟩ := List.forall_mem_cons.1 hks
    have hstep : (Number.int k).toInt64?.bind (fun k => int64? (ints one k)) = int64? (ints one k) := by
      simp only [Number.toInt64?, int64?_of_fits hk]
      rfl
    rw [List.map_cons, List.foldlM_cons, hstep, staysWord_cons]
    by_cases hnext : fitsInt64 (ints one k) = true
    · rw [int64?_of_fits hnext]
      obtain ⟨hstays, hleaves⟩ := ih hnext hks
      exact ⟨fun h => hstays h.2, fun h => hleaves fun hrest => h ⟨hone, hrest⟩⟩
    · rw [int64?, if_neg hnext]
      exact ⟨fun h => absurd (h.2 [] List.nil_prefix) hnext, fun _ => rfl⟩

theorem combine_exactIf (ints : Int → Int → Int) (floats : Float → Float → Float) (hone : fitsInt64 one = true)
    (hks : ∀ k ∈ ks, fitsInt64 k = true) :
    ExactIf (StaysWord ints one ks) (ks.foldl ints one)
      (.ofFloat ((ks.map nearestFloat).foldl floats (nearestFloat one))) (combine ints floats one (ks.map .int)) := by
  obtain ⟨hstays, hleaves⟩ := foldlM_int64? ints hone hks
  have hfloats : (ks.map Number.int).map Number.toFloat = ks.map nearestFloat := by
    rw [List.map_map]
    rfl
  constructor
  · intro h
    rw [combine, hstays h]
  · intro h
    rw [combine, hleaves h, hfloats]
    exact ⟨rfl, Value.ofFloat_ne_ofInt _⟩

end Library

/-- What operators do to integers that two programs put. -/
theorem Program.Puts.arithmetic {s : Setting} {p q : Program} {m : Node} {o o' : Operand} {op : BinaryOp}
    (hp : p.Puts s m o) (hq : q.Puts s m o') (hheight : q.height? 0 = some 1)
    (hop : ∀ v, op.keepsLeft? v = none) :
    Puts s (p ++ q ++ [.binary op]) m
      (.node (m.compute (op.apply (o.toNode m.location).value (o'.toNode m.location).value))) := by
  have hnode : op.applyNode m (o.toNode m.location) (o'.toNode m.location) =
      m.compute (op.apply (o.toNode m.location).value (o'.toNode m.location).value) := by
    rw [BinaryOp.applyNode, hop]
  rw [← hnode]
  exact hp.binary hq hheight op

open Value (ExactIf)

/-- Integers of 64 bits stay integers where the result is one, and otherwise the result is no integer: no result is
wrong. A quotient by zero is `null`; sums and products are exact if all that they come by from left to right are. -/
theorem integer_arithmetic_exact (ha : fitsInt64 a = true) (hb : fitsInt64 b = true)
    (hks : ∀ k ∈ ks, fitsInt64 k = true) :
    ExactIf (fitsInt64 (a + b) = true) (a + b) (.ofFloat (nearestFloat a + nearestFloat b))
        (BinaryOp.add.apply (.ofInt a) (.ofInt b)) ∧
      ExactIf (fitsInt64 (a - b) = true) (a - b) (.ofFloat (nearestFloat a - nearestFloat b))
        (BinaryOp.sub.apply (.ofInt a) (.ofInt b)) ∧
      ExactIf (fitsInt64 (a * b) = true) (a * b) (.ofFloat (nearestFloat a * nearestFloat b))
        (BinaryOp.mul.apply (.ofInt a) (.ofInt b)) ∧
      ExactIf (b ≠ 0 ∧ b ∣ a ∧ fitsInt64 (a / b) = true) (a / b)
        (if b = 0 then .null else .ofFloat (nearestFloat a / nearestFloat b))
        (BinaryOp.div.apply (.ofInt a) (.ofInt b)) ∧
      ExactIf (fitsInt64 (-a) = true) (-a) (.ofFloat (-nearestFloat a)) (UnaryOp.negate.apply (.ofInt a)) ∧
      (∃ v, Library.abs (.ofInt a) = .ok v ∧
        ExactIf (fitsInt64 |a| = true) |a| (.ofFloat (nearestFloat a).abs) v) ∧
      (∃ v, Library.sum (.array (ks.map .ofInt)) = .ok v ∧
        ExactIf (∀ part, part <+: ks → fitsInt64 part.sum = true) ks.sum
          (.ofFloat ((ks.map nearestFloat).foldl (· + ·) 0)) v) ∧
      (ks ≠ [] → ∃ v, Library.prod (.array (ks.map .ofInt)) = .ok v ∧
        ExactIf (∀ part, part <+: ks → fitsInt64 part.prod = true) ks.prod
          (.ofFloat ((ks.map nearestFloat).foldl (· * ·) 1)) v) ∧
      ∀ (s : Setting) (p q : Program) (m : Node) (o o' : Operand), p.Puts s m o → q.Puts s m o' →
        q.height? 0 = some 1 → (o.toNode m.location).value = .ofInt a → (o'.toNode m.location).value = .ofInt b →
        (∀ op ∈ [BinaryOp.add, .sub, .mul, .div],
          Program.Puts s (p ++ q ++ [.binary op]) m (.node (m.compute (op.apply (.ofInt a) (.ofInt b))))) ∧
        Program.Puts s (p ++ [.unary .negate]) m (.node (m.compute (UnaryOp.negate.apply (.ofInt a)))) := by
  refine ⟨Value.arithmetic_exactIf _ _ ha hb, Value.arithmetic_exactIf _ _ ha hb, Value.arithmetic_exactIf _ _ ha hb,
    Value.divide_exactIf ha hb, Value.negate_exactIf ha, ?_, ?_, ?_, ?_⟩
  · rw [Int.abs_eq_natAbs]
    exact Library.abs_exactIf ha
  · refine ⟨_, Library.onNumbers_ofInt "sum" _ ks, ?_⟩
    have hzero : fitsInt64 0 = true := by decide
    have hsum := Library.combine_exactIf (· + ·) (· + ·) hzero hks
    simp only [Library.StaysWord, ← List.sum_eq_foldl] at hsum
    exact hsum
  · intro hne
    have hone : fitsInt64 1 = true := by decide
    have hprod := Library.combine_exactIf (· * ·) (· * ·) hone hks
    simp only [Library.StaysWord, ← List.prod_eq_foldl] at hprod
    have hempty : (ks.map Number.int).isEmpty = false := by simpa using hne
    refine ⟨_, Library.onNumbers_ofInt "prod" _ ks, ?_⟩
    rw [hempty]
    exact hprod
  · intro s p q m o o' hp hq hheight hv hw
    refine ⟨fun op hop => ?_, ?_⟩
    · rw [← hv, ← hw]
      refine hp.arithmetic hq hheight fun v => ?_
      simp only [List.mem_cons, List.not_mem_nil, or_false] at hop
      rcases hop with rfl | rfl | rfl | rfl <;> rfl
    · rw [← hv]
      exact Program.puts_append hp (Syntax.execute_unary .anew s m .negate o [])

/-- At the limits: the least integer has no quotient by `-1` and no negation among the words, and a sum that leaves them
on its way does not come back. -/
theorem integer_arithmetic_exact_limits :
    (∀ k, BinaryOp.div.apply (.ofInt (-2 ^ 63)) (.ofInt (-1)) ≠ .ofInt k) ∧
      BinaryOp.add.apply (.ofInt (-2 ^ 63)) (.ofInt (-1)) = .ofFloat (nearestFloat (-2 ^ 63) + nearestFloat (-1)) ∧
      BinaryOp.sub.apply (.ofInt (-2 ^ 63)) (.ofInt (-1)) = .ofInt (-2 ^ 63 + 1) ∧
      (∀ k, UnaryOp.negate.apply (.ofInt (-2 ^ 63)) ≠ .ofInt k) ∧
      ∃ v, Library.sum (.array [.ofInt (2 ^ 63 - 1), .ofInt 1, .ofInt (-1)]) = .ok v ∧ ∀ k, v ≠ .ofInt k := by
  have hks : ∀ k ∈ [(2 ^ 63 - 1 : Int), 1, -1], fitsInt64 k = true := by decide
  obtain ⟨hadd, hsub, -, hdiv, hneg, -, ⟨v, hv, hsum⟩, -⟩ :=
    integer_arithmetic_exact (a := -2 ^ 63) (b := -1) (by decide) (by decide) hks
  refine ⟨(hdiv.2 (by decide)).2, (hadd.2 (by decide)).1, hsub.1 (by decide), (hneg.2 (by decide)).2, v, hv,
    (hsum.2 fun h => ?_).2⟩
  have hbeyond : ¬fitsInt64 [(2 ^ 63 - 1 : Int), 1].sum = true := by decide
  exact hbeyond (h [2 ^ 63 - 1, 1] (List.prefix_append _ [-1]))

end PathQuery
