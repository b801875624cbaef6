import PathQuery.Proofs.Query.Spelling
import PathQuery.Standard

namespace PathQuery

open Syntax (isSpace_of_isDigit ne_of_isDigit)

/-- Digits alone are the whole part of a decimal. -/
theorem Decimal.Parts.ofText?_digits {ds : List Char} (h : ∀ c ∈ ds, c.isDigit = true) :
    ofText? ds = some ⟨ds, none, none⟩ := by
  have htake : (ds ++ []).takeWhile Char.isDigit = ds ++ [].takeWhile Char.isDigit := List.takeWhile_append_of_pos h
  have hdrop : (ds ++ []).dropWhile Char.isDigit = [].dropWhile Char.isDigit := List.dropWhile_append_of_pos h
  rw [List.append_nil] at htake hdrop
  simp [ofText?, htake, hdrop]

theorem Number.ofText?_toDigits {n : Nat} (hn : fitsUInt64 n = true) : ofText? (Nat.toDigits 10 n) = some (.int n) := by
  have hdigit : ∀ c ∈ Nat.toDigits 10 n, c.isDigit = true := fun c hc => isDigit_of_mem_toDigits hc
  have hzero : (Nat.toDigits 10 n).head? = some '0' → (Nat.toDigits 10 n).length = 1 := by
    intro h
    rw [eq_zero_of_head?_toDigits n h]
    rfl
  have hsign : ofText? (Nat.toDigits 10 n) = ofUnsigned? false (Nat.toDigits 10 n) := by
    unfold ofText?
    split
    · next cs hcs => exact absurd rfl (ne_of_isDigit (hdigit '-' (hcs ▸ List.mem_cons_self)) rfl)
    · rfl
  rw [hsign, ofUnsigned?, Decimal.Parts.ofText?_digits hdigit]
  simp only [Decimal.Parts.isInteger, ofInteger?, natOfDigits_toDigits, hn]
  rw [if_neg]
  · rfl
  · simp only [List.isEmpty_iff, Bool.or_eq_true, Bool.and_eq_true, beq_iff_eq, decide_eq_true_eq, not_or, not_and]
    refine ⟨⟨Nat.toDigits_ne_nil, fun h => ?_⟩, by simp⟩
    rw [hzero h]
    exact Nat.lt_irrefl 1

namespace Json

/-- Digits go on with a word, which ends with the text. -/
theorem lexemes_digits {ds : List Char} (h : ∀ c ∈ ds, c.isDigit = true) (read : List Char) :
    lexemes (.word read) ds = (wordValue? (read.reverse ++ ds)).map ([.scalar ·]) := by
  induction ds generalizing read with
  | nil => simp [lexemes]
  | cons d ds ih =>
    have hd := h d List.mem_cons_self
    have hne := fun c => ne_of_isDigit (d := c) hd
    have hpunctuation : punctuation? d = none := by simp [punctuation?, hne]
    have hlater := ih (fun c hc => h c (List.mem_cons_of_mem d hc)) (d :: read)
    rw [lexemes, if_neg (by simp [isSpace_of_isDigit hd]), if_neg (hne '"' rfl), hpunctuation]
    rwa [List.reverse_cons, List.append_assoc] at hlater

theorem lexemes_toDigits {n : Nat} (hn : fitsUInt64 n = true) :
    lexemes .between (Nat.toDigits 10 n) = some [.scalar (.ofNat n)] := by
  obtain ⟨d, ds, hds⟩ := List.exists_cons_of_ne_nil (Nat.toDigits_ne_nil : Nat.toDigits 10 n ≠ [])
  have hdigit : ∀ c ∈ d :: ds, c.isDigit = true := fun c hc => isDigit_of_mem_toDigits (hds ▸ hc)
  have hd := hdigit d List.mem_cons_self
  have hne := fun c => ne_of_isDigit (d := c) hd
  have hpunctuation : punctuation? d = none := by simp [punctuation?, hne]
  have hword : wordValue? (d :: ds) = some (.ofNat n) := by
    have hkeyword : ∀ c cs, c.isDigit = false → d :: ds ≠ c :: cs := fun c cs hc he => hne c hc (List.cons.inj he).1
    rw [wordValue?, if_neg (hkeyword 'n' _ rfl), if_neg (hkeyword 't' _ rfl), if_neg (hkeyword 'f' _ rfl), ← hds,
      Number.ofText?_toDigits hn]
    rfl
  rw [hds, lexemes, if_neg (by simp [isSpace_of_isDigit hd]), if_neg (hne '"' rfl), hpunctuation]
  show lexemes (.word [d]) ds = _
  rw [lexemes_digits fun c hc => hdigit c (List.mem_cons_of_mem d hc)]
  show (wordValue? (d :: ds)).map _ = _
  rw [hword]
  rfl

end Json

theorem Readers.standard_readsIntegers : Readers.standard.ReadsIntegers := by
  intro n hn
  show Value.ofText? _ = _
  rw [Value.ofText?, String.toList_ofList, Json.lexemes_toDigits hn]
  rfl

end PathQuery
