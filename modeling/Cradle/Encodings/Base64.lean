import Cradle.Core.Bytes
import Mathlib.Data.List.GetD
import Mathlib.Data.List.Nodup

/-!
# Base64

The encoder takes three bytes at a time and puts out four digits; a group that is not
full is padded.  The result is a C string, so a set of characters whose padding is zero
has none.  The decoder looks the digits up in a reverse mapping and stops at the padding
or at the end.
-/

namespace Cradle

/-- `base64_character_set`: the 64 digits and the padding character. -/
structure Base64CharacterSet where
  digits : Bytes
  padding : UInt8
  length_digits : digits.length = 64
  nodup : digits.Nodup
  zero_not_mem : 0 ∉ digits
  padding_not_mem : padding ∉ digits

namespace Base64CharacterSet

/-- The upper case letters, the lower case letters and the decimal digits. -/
def alphanumerics : Bytes :=
  (List.range 26).map (fun i => UInt8.ofNat (65 + i)) ++
    ((List.range 26).map (fun i => UInt8.ofNat (97 + i)) ++
      (List.range 10).map fun i => UInt8.ofNat (48 + i))

/-- `get_mime_base64_character_set`: the last two digits are `+` and `/`, the padding is `=`. -/
def mime : Base64CharacterSet where
  digits := alphanumerics ++ [43, 47]
  padding := 61
  length_digits := by decide
  nodup := by decide
  zero_not_mem := by decide
  padding_not_mem := by decide

/-- `get_url_friendly_base64_character_set`: the last two digits are `-` and `_`, and there is
no padding. -/
def urlFriendly : Base64CharacterSet where
  digits := alphanumerics ++ [45, 95]
  padding := 0
  length_digits := by decide
  nodup := by decide
  zero_not_mem := by decide
  padding_not_mem := by decide

variable (set : Base64CharacterSet)

def digit (i : ℕ) : UInt8 := set.digits.getD i 0

/-- `reverse_mapping`. -/
def reverseMapping (c : UInt8) : ℕ := if c ∈ set.digits then set.digits.idxOf c else 0xff

theorem digit_mem {i : ℕ} (h : i < 64) : set.digit i ∈ set.digits := by
  have hi : i < set.digits.length := by rw [set.length_digits]; exact h
  rw [digit, List.getD_eq_getElem _ _ hi]
  exact List.getElem_mem hi

theorem reverseMapping_digit {i : ℕ} (h : i < 64) : set.reverseMapping (set.digit i) = i := by
  have hi : i < set.digits.length := by rw [set.length_digits]; exact h
  rw [reverseMapping, if_pos (set.digit_mem h), digit, List.getD_eq_getElem _ _ hi]
  exact set.nodup.idxOf_getElem i hi

theorem digit_ne_padding {i : ℕ} (h : i < 64) : set.digit i ≠ set.padding := by
  intro he
  exact set.padding_not_mem (he ▸ set.digit_mem h)

theorem digit_ne_zero {i : ℕ} (h : i < 64) : set.digit i ≠ 0 := by
  intro he
  exact set.zero_not_mem (he ▸ set.digit_mem h)

end Base64CharacterSet

section Codec
variable (set : Base64CharacterSet)

/-- The characters that `base64_encode` writes to its buffer.  The number that holds the bytes
of a group is shifted by eight bits for each. -/
def base64Characters : Bytes → Bytes
  | [] => []
  | [b0] =>
      let n := b0.toNat
      [set.digit (n / 4 % 64), set.digit (n * 256 / 16 % 64), set.padding, set.padding]
  | [b0, b1] =>
      let n := b0.toNat * 256 + b1.toNat
      [set.digit (b0.toNat / 4 % 64), set.digit (n / 16 % 64), set.digit (n * 256 / 64 % 64),
        set.padding]
  | b0 :: b1 :: b2 :: src =>
      let n := b0.toNat * 256 + b1.toNat
      let m := n * 256 + b2.toNat
      set.digit (b0.toNat / 4 % 64) :: set.digit (n / 16 % 64) :: set.digit (m / 64 % 64)
        :: set.digit (m % 64) :: base64Characters src

/-- `base64_encode`: the characters up to the first that is zero. -/
def base64Encode (src : Bytes) : Bytes := (base64Characters set src).takeWhile (· ≠ 0)

/-- `base64_decode`; `none` is the `parsing_error`.  The bits that are put together do not
overlap, so that the sums are the bitwise disjunctions of the source. -/
def base64Decode : Bytes → Option Bytes
  | [] => some []
  | [_] => none
  | s0 :: s1 :: src =>
      let c0 := set.reverseMapping s0
      let c1 := set.reverseMapping s1
      if c0 > 63 ∨ c1 > 63 then none
      else
        let d0 := UInt8.ofNat (c0 * 4 + c1 / 16)
        match src with
        | [] => some [d0]
        | s2 :: src =>
            let c2 := set.reverseMapping s2
            if s2 = set.padding then some [d0]
            else if c2 > 63 then none
            else
              let d1 := UInt8.ofNat (c1 % 16 * 16 + c2 / 4)
              match src with
              | [] => some [d0, d1]
              | s3 :: src =>
                  let c3 := set.reverseMapping s3
                  if s3 = set.padding then some [d0, d1]
                  else if c3 > 63 then none
                  else
                    let d2 := UInt8.ofNat (c2 % 4 * 64 + c3)
                    (base64Decode src).map fun dst => d0 :: d1 :: d2 :: dst

/-! ## Decoding what was encoded -/

variable {set}

theorem ofNat_eq {n : ℕ} {b : UInt8} (h : n = b.toNat) : UInt8.ofNat n = b := by
  subst h
  exact UInt8.ofNat_toNat

section Groups
variable {i j k l : ℕ} (hi : i < 64) (hj : j < 64) (hk : k < 64) (hl : l < 64)
include hi hj

/-- Two digits and no more, or padding after them. -/
theorem base64Decode_two {src : Bytes} (hsrc : src = [] ∨ src.head? = some set.padding) :
    base64Decode set (set.digit i :: set.digit j :: src) = some [UInt8.ofNat (i * 4 + j / 16)] := by
  rw [base64Decode.eq_def]
  simp only [set.reverseMapping_digit hi, set.reverseMapping_digit hj]
  rw [if_neg (by omega)]
  cases src with
  | nil => rfl
  | cons s2 src =>
      have hs2 : s2 = set.padding := by simpa using hsrc
      exact if_pos hs2

include hk

/-- Three digits and no more, or padding after them. -/
theorem base64Decode_three {src : Bytes} (hsrc : src = [] ∨ src.head? = some set.padding) :
    base64Decode set (set.digit i :: set.digit j :: set.digit k :: src)
      = some [UInt8.ofNat (i * 4 + j / 16), UInt8.ofNat (j % 16 * 16 + k / 4)] := by
  rw [base64Decode.eq_def]
  simp only [set.reverseMapping_digit hi, set.reverseMapping_digit hj, set.reverseMapping_digit hk]
  rw [if_neg (by omega), if_neg (set.digit_ne_padding hk), if_neg (by omega)]
  cases src with
  | nil => rfl
  | cons s3 src =>
      have hs3 : s3 = set.padding := by simpa using hsrc
      exact if_pos hs3

include hl

/-- A full group of four digits. -/
theorem base64Decode_four (src : Bytes) :
    base64Decode set (set.digit i :: set.digit j :: set.digit k :: set.digit l :: src)
      = (base64Decode set src).map fun dst => UInt8.ofNat (i * 4 + j / 16)
          :: UInt8.ofNat (j % 16 * 16 + k / 4) :: UInt8.ofNat (k % 4 * 64 + l) :: dst := by
  rw [base64Decode.eq_def]
  simp only [set.reverseMapping_digit hi, set.reverseMapping_digit hj, set.reverseMapping_digit hk,
    set.reverseMapping_digit hl]
  rw [if_neg (by omega), if_neg (set.digit_ne_padding hk), if_neg (by omega),
    if_neg (set.digit_ne_padding hl), if_neg (by omega)]

end Groups

/-- Padding at the end of a C string, or nothing where the padding is zero. -/
theorem takeWhile_padding (rest : Bytes) :
    (set.padding :: rest).takeWhile (· ≠ 0) = [] ∨
      ((set.padding :: rest).takeWhile (· ≠ 0)).head? = some set.padding := by
  by_cases h : set.padding = 0
  · simp [h]
  · simp [h]

theorem takeWhile_digit {i : ℕ} (h : i < 64) (rest : Bytes) :
    (set.digit i :: rest).takeWhile (· ≠ 0) = set.digit i :: rest.takeWhile (· ≠ 0) :=
  List.takeWhile_cons_of_pos (by simpa using set.digit_ne_zero h)

/-- Decoding what was encoded yields the bytes. -/
theorem base64Decode_base64Encode (src : Bytes) :
    base64Decode set (base64Encode set src) = some src := by
  have hmod (n : ℕ) : n % 64 < 64 := Nat.mod_lt _ (by decide)
  rw [base64Encode]
  -- one group of three bytes, or what is left of one, at a time
  induction src using base64Characters.induct with
  | case1 => rfl
  | case2 b0 =>
      have hb0 := b0.toNat_lt
      rw [base64Characters, takeWhile_digit (hmod _), takeWhile_digit (hmod _),
        base64Decode_two (hmod _) (hmod _) (takeWhile_padding _), ofNat_eq]
      omega
  | case3 b0 b1 =>
      have hb0 := b0.toNat_lt
      have hb1 := b1.toNat_lt
      rw [base64Characters, takeWhile_digit (hmod _), takeWhile_digit (hmod _),
        takeWhile_digit (hmod _), base64Decode_three (hmod _) (hmod _) (hmod _)
          (takeWhile_padding _), ofNat_eq (b := b0) (by omega), ofNat_eq (b := b1) (by omega)]
  | case4 b0 b1 b2 src ih =>
      have hb0 := b0.toNat_lt
      have hb1 := b1.toNat_lt
      have hb2 := b2.toNat_lt
      rw [base64Characters, takeWhile_digit (hmod _), takeWhile_digit (hmod _),
        takeWhile_digit (hmod _), takeWhile_digit (hmod _),
        base64Decode_four (hmod _) (hmod _) (hmod _) (hmod _), ih,
        ofNat_eq (b := b0) (by omega), ofNat_eq (b := b1) (by omega),
        ofNat_eq (b := b2) (by omega)]
      rfl

/-! ## The buffers

The callers allocate the buffers, with the lengths that two functions compute from the length
of the input.  The encoder ends what it writes with a zero; the decoder may have written
something already when it throws. -/

/-- Bytes that an object can hold: its size is a `ptrdiff_t`. -/
structure ByteObject where
  bytes : Bytes
  length_lt : bytes.length < 2 ^ 63

/-- `size()`. -/
def ByteObject.size (x : ByteObject) : UInt64 := UInt64.ofNat x.bytes.length

theorem ByteObject.toNat_size (x : ByteObject) : x.size.toNat = x.bytes.length := by
  have hlt := x.length_lt
  rw [size, UInt64.toNat_ofNat', Nat.mod_eq_of_lt (by omega)]

def getBase64EncodedLength (rawLength : UInt64) : UInt64 := (rawLength + 2) / 3 * 4 + 1

def getBase64DecodedLength (encodedLength : UInt64) : UInt64 := (encodedLength + 3) / 4 * 3

/-- The length of an object is too small for an overflow. -/
theorem toNat_getBase64EncodedLength (x : ByteObject) :
    (getBase64EncodedLength x.size).toNat = (x.bytes.length + 2) / 3 * 4 + 1 := by
  have hlt := x.length_lt
  simp only [getBase64EncodedLength, UInt64.toNat_add, UInt64.toNat_mul, UInt64.toNat_div,
    x.toNat_size, UInt64.reduceToNat]
  omega

theorem toNat_getBase64DecodedLength (x : ByteObject) :
    (getBase64DecodedLength x.size).toNat = (x.bytes.length + 3) / 4 * 3 := by
  have hlt := x.length_lt
  simp only [getBase64DecodedLength, UInt64.toNat_add, UInt64.toNat_mul, UInt64.toNat_div,
    x.toNat_size, UInt64.reduceToNat]
  omega

variable (set)

/-- What `base64_encode` writes. -/
def base64EncodeWrites (src : Bytes) : Bytes := base64Characters set src ++ [0]

/-- What `base64_decode` writes, and whether it then returns. -/
def base64DecodeWrites : Bytes → Bytes × Bool
  | [] => ([], true)
  | [_] => ([], false)
  | s0 :: s1 :: src =>
      let c0 := set.reverseMapping s0
      let c1 := set.reverseMapping s1
      if c0 > 63 ∨ c1 > 63 then ([], false)
      else
        let d0 := UInt8.ofNat (c0 * 4 + c1 / 16)
        match src with
        | [] => ([d0], true)
        | s2 :: src =>
            let c2 := set.reverseMapping s2
            if s2 = set.padding then ([d0], true)
            else if c2 > 63 then ([d0], false)
            else
              let d1 := UInt8.ofNat (c1 % 16 * 16 + c2 / 4)
              match src with
              | [] => ([d0, d1], true)
              | s3 :: src =>
                  let c3 := set.reverseMapping s3
                  if s3 = set.padding then ([d0, d1], true)
                  else if c3 > 63 then ([d0, d1], false)
                  else
                    let d2 := UInt8.ofNat (c2 % 4 * 64 + c3)
                    let (dst, ok) := base64DecodeWrites src
                    (d0 :: d1 :: d2 :: dst, ok)

/-- What is decoded is what has been written, where the decoder returns. -/
theorem base64Decode_eq_writes (src : Bytes) : base64Decode set src
    = if (base64DecodeWrites set src).2 = true then some (base64DecodeWrites set src).1
      else none := by
  fun_induction base64DecodeWrites set src with
  | case1 => rfl
  | case2 => rfl
  | case3 s0 s1 src c0 c1 hbad =>
      rw [base64Decode.eq_def]
      exact if_pos hbad
  | case4 s0 s1 c0 c1 hgood =>
      rw [base64Decode.eq_def]
      exact if_neg hgood
  | case5 s0 s1 c0 c1 hgood d0 src =>
      rw [base64Decode.eq_def]
      exact (if_neg hgood).trans (if_pos rfl)
  | case6 s0 s1 c0 c1 hgood d0 s2 src c2 hs2 hbad =>
      rw [base64Decode.eq_def]
      exact (if_neg hgood).trans ((if_neg hs2).trans (if_pos hbad))
  | case7 s0 s1 c0 c1 hgood d0 s2 c2 hs2 hc2 d1 =>
      rw [base64Decode.eq_def]
      exact (if_neg hgood).trans ((if_neg hs2).trans (if_neg hc2))
  | case8 s0 s1 c0 c1 hgood d0 s2 c2 hs2 hc2 d1 src =>
      rw [base64Decode.eq_def]
      exact (if_neg hgood).trans ((if_neg hs2).trans ((if_neg hc2).trans (if_pos rfl)))
  | case9 s0 s1 c0 c1 hgood d0 s2 c2 hs2 hc2 d1 s3 src c3 hs3 hbad =>
      rw [base64Decode.eq_def]
      exact (if_neg hgood).trans
        ((if_neg hs2).trans ((if_neg hc2).trans ((if_neg hs3).trans (if_pos hbad))))
  | case10 s0 s1 c0 c1 hgood d0 s2 c2 hs2 hc2 d1 s3 src c3 hs3 hc3 d2 dst ok hrest ih =>
      rw [hrest] at ih
      rw [base64Decode.eq_def]
      refine (if_neg hgood).trans
        ((if_neg hs2).trans ((if_neg hc2).trans ((if_neg hs3).trans ((if_neg hc3).trans ?_))))
      rw [ih]
      cases ok <;> rfl

/-- The zero at the end included, the encoder fills its buffer at most. -/
theorem length_base64EncodeWrites (src : Bytes) :
    (base64EncodeWrites set src).length = (src.length + 2) / 3 * 4 + 1 := by
  rw [base64EncodeWrites, List.length_append, List.length_singleton, Nat.add_right_cancel_iff]
  fun_induction base64Characters set src with
  | case1 => rfl
  | case2 => simp
  | case3 => simp
  | case4 b0 b1 b2 src n m ih =>
      simp only [List.length_cons, ih]
      omega

/-- Up to three bytes are written for each four characters, whatever these are. -/
theorem length_base64DecodeWrites (src : Bytes) :
    (base64DecodeWrites set src).1.length ≤ (src.length + 3) / 4 * 3 := by
  fun_induction base64DecodeWrites set src with
  | case10 s0 s1 c0 c1 hgood d0 s2 c2 hs2 hc2 d1 s3 src c3 hs3 hc3 d2 dst ok hrest ih =>
      rw [hrest] at ih
      simp only [List.length_cons] at ih ⊢
      omega
  | _ =>
      simp only [List.length_cons, List.length_nil]
      omega

/-- What was encoded is decoded again, and neither direction writes beyond its buffer. -/
theorem base64_roundTrip_and_bounds (x : ByteObject) :
    base64Decode set (base64Encode set x.bytes) = some x.bytes
      ∧ (base64EncodeWrites set x.bytes).length ≤ (getBase64EncodedLength x.size).toNat
      ∧ (base64DecodeWrites set x.bytes).1.length ≤ (getBase64DecodedLength x.size).toNat := by
  refine ⟨base64Decode_base64Encode x.bytes, ?_, ?_⟩
  · rw [toNat_getBase64EncodedLength]
    exact Nat.le_of_eq (length_base64EncodeWrites set x.bytes)
  · rw [toNat_getBase64DecodedLength]
    exact length_base64DecodeWrites set x.bytes

end Codec
end Cradle
