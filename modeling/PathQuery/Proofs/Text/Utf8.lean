import Mathlib.Tactic.SplitIfs

namespace PathQuery.Text

/-- The bytes of a text in UTF-8. -/
def bytes (s : String) : List UInt8 := s.toByteArray.data.toList

theorem bytes_eq (s : String) : bytes s = s.toList.flatMap String.utf8EncodeChar := by
  rw [bytes, ← String.utf8Encode_toList, List.utf8Encode, List.toList_data_toByteArray]

section encoding

variable {m n : Nat} {xs ys : List UInt8}

theorem byte_cons_lt (h : m < n) (hn : n < 256) : UInt8.ofNat m :: xs < UInt8.ofNat n :: ys := by
  rw [List.cons_lt_cons_iff, UInt8.lt_iff_toNat_lt, UInt8.toNat_ofNat', UInt8.toNat_ofNat']
  left
  omega

theorem byte_cons_le (h : m ≤ n) (hn : n < 256) (hs : m = n → xs < ys) : UInt8.ofNat m :: xs < UInt8.ofNat n :: ys := by
  rcases Nat.lt_or_eq_of_le h with hlt | rfl
  · exact byte_cons_lt hlt hn
  · exact List.cons_lt_cons_iff.2 (.inr ⟨rfl, hs rfl⟩)

/-- Of two characters the one that comes first has the lower byte at the first place where their bytes differ. A shorter
form starts with a lower byte than a longer one; forms of one length hold the code point from its high bits on. -/
theorem encode_append_lt {c d : Char} (h : c < d) (xs ys : List UInt8) :
    String.utf8EncodeChar c ++ xs < String.utf8EncodeChar d ++ ys := by
  have hlt : c.val.toNat < d.val.toNat := h
  have hd : d.val.toNat < 0x110000 := by
    have hvalid : d.val.toNat < 0xD800 ∨ 0xDFFF < d.val.toNat ∧ d.val.toNat < 0x110000 := d.valid
    omega
  simp only [String.utf8EncodeChar]
  generalize c.val.toNat = m at *
  generalize d.val.toNat = n at *
  by_cases hn : n ≤ 0x7f
  · rw [if_pos (show m ≤ 0x7f by omega), if_pos hn]
    exact byte_cons_lt hlt (by omega)
  rw [if_neg hn]
  by_cases hm : m ≤ 0x7f
  · rw [if_pos hm]
    split_ifs <;> exact byte_cons_lt (by omega) (by omega)
  rw [if_neg hm]
  by_cases hn : n ≤ 0x7ff
  · rw [if_pos (show m ≤ 0x7ff by omega), if_pos hn]
    exact byte_cons_le (by omega) (by omega) fun _ => byte_cons_lt (by omega) (by omega)
  rw [if_neg hn]
  by_cases hm : m ≤ 0x7ff
  · rw [if_pos hm]
    split_ifs <;> exact byte_cons_lt (by omega) (by omega)
  rw [if_neg hm]
  by_cases hn : n ≤ 0xffff
  · rw [if_pos (show m ≤ 0xffff by omega), if_pos hn]
    refine byte_cons_le (by omega) (by omega) fun _ => ?_
    exact byte_cons_le (by omega) (by omega) fun _ => byte_cons_lt (by omega) (by omega)
  rw [if_neg hn]
  by_cases hm : m ≤ 0xffff
  · rw [if_pos hm]
    exact byte_cons_lt (by omega) (by omega)
  rw [if_neg hm]
  refine byte_cons_le (by omega) (by omega) fun _ => ?_
  refine byte_cons_le (by omega) (by omega) fun _ => ?_
  exact byte_cons_le (by omega) (by omega) fun _ => byte_cons_lt (by omega) (by omega)

end encoding

/-- Texts are in order after each character is replaced by something, if what replaces two characters decides. -/
theorem flatMap_lt {α : Type} [LT α] {f : Char → List α} (hne : ∀ c, f c ≠ [])
    (hf : ∀ {c d : Char}, c < d → ∀ xs ys, f c ++ xs < f d ++ ys) {cs ds : List Char} (h : cs < ds) :
    cs.flatMap f < ds.flatMap f := by
  induction cs generalizing ds with
  | nil =>
    cases ds with
    | nil => exact absurd h (List.lt_irrefl [])
    | cons d ds =>
      rw [List.flatMap_nil, List.flatMap_cons]
      cases he : f d with
      | nil => exact absurd he (hne d)
      | cons b bs => exact List.nil_lt_cons b _
  | cons c cs ih =>
    cases ds with
    | nil => exact absurd h (List.not_lt_nil _)
    | cons d ds =>
      rw [List.flatMap_cons, List.flatMap_cons]
      rcases List.cons_lt_cons_iff.1 h with hlt | ⟨rfl, hlt⟩
      · exact hf hlt _ _
      · exact List.append_left_lt (ih hlt)

theorem map_toNat_lt {cs ds : List Char} (h : cs < ds) : cs.map Char.toNat < ds.map Char.toNat := by
  rw [List.map_eq_flatMap, List.map_eq_flatMap]
  have hf : ∀ {c d : Char}, c < d → ∀ xs ys : List Nat, [c.toNat] ++ xs < [d.toNat] ++ ys :=
    fun hlt _ _ => List.cons_lt_cons_iff.2 (.inl hlt)
  exact flatMap_lt (fun c => List.cons_ne_nil c.toNat []) hf h

/-- Texts are compared like what they are mapped to if this keeps the order. -/
theorem lt_iff_of_mono {α : Type} [LT α] [Std.Asymm (α := α) (· < ·)] {f : String → List α}
    (hf : ∀ {s t : String}, s < t → f s < f t) {s t : String} : f s < f t ↔ s < t := by
  refine ⟨fun h => Decidable.byContradiction fun hst => ?_, hf⟩
  have hts : ¬t < s := fun hlt => List.lt_asymm h (hf hlt)
  obtain rfl : s = t := String.le_antisymm hts hst
  exact List.lt_asymm h h

/-- The order of texts is that of their bytes. -/
theorem bytes_lt_iff {s t : String} : bytes s < bytes t ↔ s < t := by
  refine lt_iff_of_mono fun h => ?_
  rw [bytes_eq, bytes_eq]
  exact flatMap_lt (fun _ => String.utf8EncodeChar_ne_nil) encode_append_lt h

/-- It is that of their code points too. -/
theorem codePoints_lt_iff {s t : String} : s.toList.map Char.toNat < t.toList.map Char.toNat ↔ s < t :=
  lt_iff_of_mono (f := fun s => s.toList.map Char.toNat) map_toNat_lt

theorem compare_eq_lt_iff {s t : String} : compare s t = .lt ↔ s < t := compareOfLessAndEq_eq_lt

end PathQuery.Text
