import Cradle.Core.UniqueHash
import Cradle.Lib.Decoder

/-!
# Reading and writing raw memory

The readers take bytes off a buffer and throw `corrupt_data` when it has too few; they
are stated for any type of errors, given the one that stands for that exception.  The
machine is little-endian, so `read_int` and `write_int`, which swap on such a machine,
use big-endian bytes, and `raw_read` and `raw_write` of an integer do not.
-/

namespace Cradle

/-- The number that a byte string represents, least significant byte first. -/
def ofLeBytes : Bytes → ℕ
  | [] => 0
  | b :: bs => b.toNat + 256 * ofLeBytes bs

theorem ofLeBytes_leBytes {w n : ℕ} (h : n < 256 ^ w) : ofLeBytes (leBytes w n) = n := by
  induction w generalizing n with
  | zero =>
      simp only [Nat.pow_zero] at h
      simp only [leBytes, ofLeBytes]
      omega
  | succ w ih =>
      rw [Nat.pow_succ] at h
      rw [leBytes, ofLeBytes, ih (by omega)]
      simp only [UInt8.toNat_ofNat', Nat.reducePow]
      omega

namespace IntType

section Ranges
variable {v : ℤ} {n : ℕ}

theorem inRange_int8 : int8.InRange v ↔ -0x80 ≤ v ∧ v < 0x80 := by
  simp [InRange, lowest, signed, width]

theorem inRange_int16 : int16.InRange v ↔ -0x8000 ≤ v ∧ v < 0x8000 := by
  simp [InRange, lowest, signed, width]

theorem inRange_int32 : int32.InRange v ↔ -0x80000000 ≤ v ∧ v < 0x80000000 := by
  simp [InRange, lowest, signed, width]

theorem inRange_int64 :
    int64.InRange v ↔ -0x8000000000000000 ≤ v ∧ v < 0x8000000000000000 := by
  simp [InRange, lowest, signed, width]

/-- The sizes that fit into an unsigned length field. -/
theorem inRange_unsigned {t : IntType} (h : t.signed = false) :
    t.InRange n ↔ n < 256 ^ t.width := by
  have hlow : t.lowest = 0 := by simp [lowest, h]
  rw [InRange, hlow]
  omega

end Ranges

@[simp] theorem length_stream (t : IntType) (v : ℤ) : (t.stream v).length = t.width :=
  length_leBytes _ _

/-- The integer with the given object representation. -/
def ofStream (t : IntType) (bs : Bytes) : ℤ :=
  let n : ℕ := ofLeBytes bs
  if t.signed = true ∧ 256 ^ t.width ≤ 2 * n then (n : ℤ) - (256 ^ t.width : ℕ) else n

theorem ofStream_stream {t : IntType} {v : ℤ} (h : t.InRange v) : t.ofStream (t.stream v) = v := by
  have hlt : (v % (256 ^ t.width : ℕ)).toNat < 256 ^ t.width := by
    have hpos : (0 : ℤ) < (256 ^ t.width : ℕ) := by exact_mod_cast Nat.pow_pos (by decide)
    have := Int.emod_lt_of_pos v hpos
    omega
  simp only [ofStream, stream, ofLeBytes_leBytes hlt]
  clear hlt
  -- the widths are numerals now, and so are the moduli
  cases t <;> simp [InRange, lowest, signed, width] at h ⊢ <;> omega

/-- The object representation with the most significant byte first. -/
def bigEndian (t : IntType) (v : ℤ) : Bytes := (t.stream v).reverse

@[simp] theorem length_bigEndian (t : IntType) (v : ℤ) : (t.bigEndian v).length = t.width := by
  simp [bigEndian]

/-- The integer with the given big-endian representation. -/
def ofBigEndian (t : IntType) (bs : Bytes) : ℤ := t.ofStream bs.reverse

theorem ofBigEndian_bigEndian {t : IntType} {v : ℤ} (h : t.InRange v) :
    t.ofBigEndian (t.bigEndian v) = v := by
  rw [ofBigEndian, bigEndian, List.reverse_reverse, ofStream_stream h]

end IntType

section Reading
variable {ε : Type} (corruptData : ε)

/-- `raw_read`. -/
def rawRead (size : ℕ) : Decoder ε UInt8 Bytes := Decoder.take corruptData size

/-- `raw_read` into an integer. -/
def rawReadInt (t : IntType) : Decoder ε UInt8 ℤ := do
  let bs ← rawRead corruptData t.width
  return t.ofStream bs

/-- `read_int`. -/
def readInt (t : IntType) : Decoder ε UInt8 ℤ := do
  let bs ← rawRead corruptData t.width
  return t.ofBigEndian bs

/-- `read_string` of a given length. -/
def readString (length : ℕ) : Decoder ε UInt8 Bytes := rawRead corruptData length

/-- `read_string` with a length field. -/
def readSizedString (t : IntType) : Decoder ε UInt8 Bytes := do
  let length ← readInt corruptData t
  readString corruptData length.toNat

end Reading

/-- `write_int`. -/
def writeInt (t : IntType) (i : ℤ) : Bytes := t.bigEndian i

/-- `write_string`: the length, then the contents.  The cast of the length to the type of
the length field throws when it does not fit. -/
def writeString (t : IntType) (s : Bytes) : Option Bytes :=
  if t.InRange s.length then some (writeInt t s.length ++ s) else none

@[simp] theorem length_writeInt (t : IntType) (i : ℤ) : (writeInt t i).length = t.width :=
  t.length_bigEndian i

section ReadsBack
variable {ε : Type} (corruptData : ε)

theorem readsBack_rawRead {size : ℕ} {bs : Bytes} (h : bs.length = size) :
    (rawRead corruptData size).ReadsBack bs bs :=
  Decoder.ReadsBack.take corruptData h

theorem readsBack_rawReadInt {t : IntType} {i : ℤ} (h : t.InRange i) :
    (rawReadInt corruptData t).ReadsBack (t.stream i) i := by
  have hread := (readsBack_rawRead corruptData (t.length_stream i)).map t.ofStream
  rwa [IntType.ofStream_stream h] at hread

theorem readsBack_readInt {t : IntType} {i : ℤ} (h : t.InRange i) :
    (readInt corruptData t).ReadsBack (writeInt t i) i := by
  have hread := (readsBack_rawRead corruptData (length_writeInt t i)).map t.ofBigEndian
  rwa [writeInt, IntType.ofBigEndian_bigEndian h] at hread

theorem readsBack_readString {length : ℕ} {s : Bytes} (h : s.length = length) :
    (readString corruptData length).ReadsBack s s :=
  readsBack_rawRead corruptData h

theorem readsBack_readSizedString {t : IntType} {s out : Bytes} (h : writeString t s = some out) :
    (readSizedString corruptData t).ReadsBack out s := by
  rw [writeString] at h
  split at h
  case isTrue hin =>
    cases h
    exact (readsBack_readInt corruptData hin).bind (readsBack_readString corruptData (by simp))
  case isFalse => cases h

end ReadsBack

end Cradle
