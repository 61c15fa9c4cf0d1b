import Cradle.Encodings.Base64

/-!
# Which strings are Base64

The decoder takes the digits in groups of four.  The last group may be short, and where it is,
padding ends it: the decoder returns as soon as it sees a padding character, so that it
tolerates padding that is not complete, and does not look at what comes after it.
-/

namespace Cradle

variable {set : Base64CharacterSet} {src ds rest : Bytes}

/-- The digits of a Base64 string: their number is not 1 modulo 4. -/
structure Base64Digits (set : Base64CharacterSet) (ds : Bytes) : Prop where
  digits : ∀ c ∈ ds, c ∈ set.digits
  count : ds.length % 4 ≠ 1

/-- The padding that the digits need to reach a multiple of four characters. -/
def paddingLength (ds : Bytes) : ℕ := (4 - ds.length % 4) % 4

/-- Digits, with the whole padding or with none. -/
def IsBase64 (set : Base64CharacterSet) (src : Bytes) : Prop :=
  ∃ ds, Base64Digits set ds ∧
    (src = ds ∨ src = ds ++ List.replicate (paddingLength ds) set.padding)

/-- Digits, with the padding or a part of it, if the set has padding. -/
def TolerablyBase64 (set : Base64CharacterSet) (src : Bytes) : Prop :=
  ∃ ds k, Base64Digits set ds ∧ k ≤ paddingLength ds ∧ (k = 0 ∨ set.padding ≠ 0) ∧
    src = ds ++ List.replicate k set.padding

/-- Digits that leave the last group short, a padding character, and anything. -/
def PaddedBase64 (set : Base64CharacterSet) (src : Bytes) : Prop :=
  ∃ ds rest, Base64Digits set ds ∧ ds.length % 4 ≠ 0 ∧ src = ds ++ set.padding :: rest

namespace Base64CharacterSet

theorem exists_digit {c : UInt8} (h : c ∈ set.digits) : ∃ i < 64, set.digit i = c := by
  have hlt : set.digits.idxOf c < set.digits.length := List.idxOf_lt_length_of_mem h
  refine ⟨set.digits.idxOf c, ?_, ?_⟩
  · rw [← set.length_digits]
    exact hlt
  · rw [digit, List.getD_eq_getElem _ _ hlt]
    exact List.getElem_idxOf hlt

/-- What the reverse mapping has no digit for is too large for one. -/
theorem reverseMapping_le_iff {c : UInt8} : set.reverseMapping c ≤ 63 ↔ c ∈ set.digits := by
  constructor
  · intro h
    by_contra hc
    rw [reverseMapping, if_neg hc] at h
    omega
  · intro h
    obtain ⟨i, hi, rfl⟩ := exists_digit h
    rw [reverseMapping_digit set hi]
    omega

end Base64CharacterSet

/-! ## What the decoder accepts -/

/-- The decoder is done after the digits: at the end, or at padding in a short group. -/
def DecoderStops (set : Base64CharacterSet) (ds rest : Bytes) : Prop :=
  rest = [] ∨ ds.length % 4 ≠ 0 ∧ rest.head? = some set.padding

theorem base64Decode_isSome_of_digits : ∀ {ds : Bytes}, Base64Digits set ds →
    DecoderStops set ds rest → (base64Decode set (ds ++ rest)).isSome
  | [], _, hstop => by
      obtain rfl : rest = [] := by simpa [DecoderStops] using hstop
      rfl
  | [_], h, _ => absurd rfl h.count
  | [a, b], h, hstop => by
      obtain ⟨i, hi, rfl⟩ := Base64CharacterSet.exists_digit (h.digits a (by simp))
      obtain ⟨j, hj, rfl⟩ := Base64CharacterSet.exists_digit (h.digits b (by simp))
      have hrest : rest = [] ∨ rest.head? = some set.padding := hstop.imp id And.right
      rw [List.cons_append, List.cons_append, List.nil_append, base64Decode_two hi hj hrest]
      rfl
  | [a, b, c], h, hstop => by
      obtain ⟨i, hi, rfl⟩ := Base64CharacterSet.exists_digit (h.digits a (by simp))
      obtain ⟨j, hj, rfl⟩ := Base64CharacterSet.exists_digit (h.digits b (by simp))
      obtain ⟨k, hk, rfl⟩ := Base64CharacterSet.exists_digit (h.digits c (by simp))
      have hrest : rest = [] ∨ rest.head? = some set.padding := hstop.imp id And.right
      rw [List.cons_append, List.cons_append, List.cons_append, List.nil_append,
        base64Decode_three hi hj hk hrest]
      rfl
  | a :: b :: c :: d :: ds, h, hstop => by
      obtain ⟨i, hi, rfl⟩ := Base64CharacterSet.exists_digit (h.digits a (by simp))
      obtain ⟨j, hj, rfl⟩ := Base64CharacterSet.exists_digit (h.digits b (by simp))
      obtain ⟨k, hk, rfl⟩ := Base64CharacterSet.exists_digit (h.digits c (by simp))
      obtain ⟨l, hl, rfl⟩ := Base64CharacterSet.exists_digit (h.digits d (by simp))
      have hcount := h.count
      simp only [DecoderStops, List.length_cons] at hcount hstop
      have hds : (base64Decode set (ds ++ rest)).isSome := by
        apply base64Decode_isSome_of_digits
        · exact ⟨fun e he => h.digits e (by simp [he]), by omega⟩
        · exact hstop.imp id fun hshort => ⟨by omega, hshort.2⟩
      simp only [List.cons_append]
      rw [base64Decode_four hi hj hk hl, Option.isSome_map]
      exact hds

/-- The characters that have been looked up are digits. -/
theorem mem_digits_of_not_gt {c0 c1 : UInt8}
    (h : ¬ (set.reverseMapping c0 > 63 ∨ set.reverseMapping c1 > 63)) :
    c0 ∈ set.digits ∧ c1 ∈ set.digits := by
  constructor
  · apply Base64CharacterSet.reverseMapping_le_iff.mp
    omega
  · apply Base64CharacterSet.reverseMapping_le_iff.mp
    omega

theorem digits_of_base64Decode_isSome (h : (base64Decode set src).isSome) :
    ∃ ds rest, src = ds ++ rest ∧ Base64Digits set ds ∧ DecoderStops set ds rest := by
  fun_induction base64Decode set src with
  | case1 => exact ⟨[], [], rfl, ⟨by simp, by simp⟩, .inl rfl⟩
  | case2 => cases h
  | case3 => cases h
  | case4 s0 s1 c0 c1 hgood =>
      obtain ⟨h0, h1⟩ := mem_digits_of_not_gt hgood
      exact ⟨[s0, s1], [], rfl, ⟨by simp [h0, h1], by simp⟩, .inl rfl⟩
  | case5 s0 s1 c0 c1 hgood d0 src =>
      obtain ⟨h0, h1⟩ := mem_digits_of_not_gt hgood
      exact ⟨[s0, s1], set.padding :: src, rfl, ⟨by simp [h0, h1], by simp⟩, .inr ⟨by simp, rfl⟩⟩
  | case6 => cases h
  | case7 s0 s1 c0 c1 hgood d0 s2 c2 hs2 hc2 d1 =>
      obtain ⟨h0, h1⟩ := mem_digits_of_not_gt hgood
      have h2 : s2 ∈ set.digits := Base64CharacterSet.reverseMapping_le_iff.mp (by omega)
      exact ⟨[s0, s1, s2], [], rfl, ⟨by simp [h0, h1, h2], by simp⟩, .inl rfl⟩
  | case8 s0 s1 c0 c1 hgood d0 s2 c2 hs2 hc2 d1 src =>
      obtain ⟨h0, h1⟩ := mem_digits_of_not_gt hgood
      have h2 : s2 ∈ set.digits := Base64CharacterSet.reverseMapping_le_iff.mp (by omega)
      exact ⟨[s0, s1, s2], set.padding :: src, rfl, ⟨by simp [h0, h1, h2], by simp⟩,
        .inr ⟨by simp, rfl⟩⟩
  | case9 => cases h
  | case10 s0 s1 c0 c1 hgood d0 s2 c2 hs2 hc2 d1 s3 src c3 hs3 hc3 d2 ih =>
      obtain ⟨h0, h1⟩ := mem_digits_of_not_gt hgood
      have h2 : s2 ∈ set.digits := Base64CharacterSet.reverseMapping_le_iff.mp (by omega)
      have h3 : s3 ∈ set.digits := Base64CharacterSet.reverseMapping_le_iff.mp (by omega)
      obtain ⟨ds, rest, rfl, hds, hstop⟩ := ih (by simpa using h)
      have hcount := hds.count
      refine ⟨s0 :: s1 :: s2 :: s3 :: ds, rest, rfl, ⟨?_, ?_⟩, ?_⟩
      · simpa [h0, h1, h2, h3] using hds.digits
      · simp only [List.length_cons]
        omega
      · refine hstop.imp id fun hshort => ⟨?_, hshort.2⟩
        have := hshort.1
        simp only [List.length_cons]
        omega

/-- The decoder accepts digits that it can stop after. -/
theorem base64Decode_isSome_iff : (base64Decode set src).isSome
    ↔ Base64Digits set src ∨ PaddedBase64 set src := by
  constructor
  · intro h
    obtain ⟨ds, rest, rfl, hds, rfl | ⟨hshort, hhead⟩⟩ := digits_of_base64Decode_isSome h
    · rw [List.append_nil]
      exact .inl hds
    · obtain ⟨rest, rfl⟩ := List.head?_eq_some_iff.mp hhead
      exact .inr ⟨ds, rest, hds, hshort, rfl⟩
  · rintro (hds | ⟨ds, rest, hds, hshort, rfl⟩)
    · rw [← List.append_nil src]
      exact base64Decode_isSome_of_digits hds (.inl rfl)
    · exact base64Decode_isSome_of_digits hds (.inr ⟨hshort, rfl⟩)

/-- **Decoding tolerates missing padding.**  It succeeds on digits whose number is not 1 modulo
4, with the padding they need, or a part of it, or none; and what it succeeds on is that, or
begins with digits that leave a group short and a padding character. -/
theorem base64Decode_tolerates (set : Base64CharacterSet) (src : Bytes) :
    (TolerablyBase64 set src → (base64Decode set src).isSome) ∧
      ((base64Decode set src).isSome → TolerablyBase64 set src ∨ PaddedBase64 set src) := by
  rw [base64Decode_isSome_iff]
  constructor
  · rintro ⟨ds, k, hds, hk, -, rfl⟩
    cases k with
    | zero =>
        rw [List.replicate_zero, List.append_nil]
        exact .inl hds
    | succ k =>
        refine .inr ⟨ds, List.replicate k set.padding, hds, ?_, rfl⟩
        rw [paddingLength] at hk
        omega
  · rintro (hds | hpadded)
    · exact .inl ⟨src, 0, hds, Nat.zero_le _, .inl rfl, by simp⟩
    · exact .inr hpadded

/-- One padding character where two are needed. -/
theorem not_base64Decode_isSome_iff_isBase64 :
    ¬ ∀ (set : Base64CharacterSet) (src : Bytes),
      (base64Decode set src).isSome ↔ IsBase64 set src := by
  intro h
  obtain ⟨ds, hds, hsrc | hsrc⟩ := (h .mime [81, 81, 61]).mp (by decide)
  · have hpadding : (61 : UInt8) ∈ Base64CharacterSet.mime.digits := by
      apply hds.digits
      rw [← hsrc]
      decide
    revert hpadding
    decide
  · have hlength := congrArg List.length hsrc
    simp only [List.length_append, List.length_replicate, List.length_cons, List.length_nil,
      paddingLength] at hlength
    omega

end Cradle
