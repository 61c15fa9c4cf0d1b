import Cradle.Typing.Dynamic
import Mathlib.Algebra.Group.Nat.Defs

/-!
# Conversions between `float` and `double`

A `float` is given by its bits, as a `double` is.  Widening is exact; narrowing rounds to
the nearest `float`, ties to even.  A signalling NaN becomes quiet in either direction.
-/

namespace Cradle

/-- A `float`, by its bits. -/
structure Single where
  bits : UInt32
  deriving DecidableEq, Repr

namespace Single

def sign (x : Single) : ℕ := x.bits.toNat / 2 ^ 31

def exponent (x : Single) : ℕ := x.bits.toNat / 2 ^ 23 % 2 ^ 8

def mantissa (x : Single) : ℕ := x.bits.toNat % 2 ^ 23

def isNaN (x : Single) : Bool := x.exponent == 255 && x.mantissa != 0

/-- The bits of the `double` of the same value, without the sign.  A subnormal number is
normalized by its highest bit. -/
def widened (e m : ℕ) : ℕ :=
  if e = 255 then 2047 * 2 ^ 52 + (if m = 0 then 0 else 2 ^ 51 + m * 2 ^ 29 % 2 ^ 51)
  else if e = 0 then
    if m = 0 then 0 else (m.log2 + 874) * 2 ^ 52 + (m - 2 ^ m.log2) * 2 ^ (52 - m.log2)
  else (e + 896) * 2 ^ 52 + m * 2 ^ 29

def toDouble (x : Single) : Double :=
  ⟨UInt64.ofNat (x.sign * 2 ^ 63 + widened x.exponent x.mantissa)⟩

end Single

/-- `q / 2 ^ s`, rounded to the nearest integer, ties to even. -/
def roundShift (q s : ℕ) : ℕ :=
  if 2 * (q % 2 ^ s) < 2 ^ s ∨ 2 * (q % 2 ^ s) = 2 ^ s ∧ q / 2 ^ s % 2 = 0 then q / 2 ^ s
  else q / 2 ^ s + 1

namespace Double

def sign (x : Double) : ℕ := x.bits.toNat / 2 ^ 63

def exponent (x : Double) : ℕ := x.bits.toNat / 2 ^ 52 % 2 ^ 11

def mantissa (x : Double) : ℕ := x.bits.toNat % 2 ^ 52

/-- The bits of the nearest `float`, without the sign.  The exponent and the mantissa are
rounded as one number, so that a carry goes from one to the other. -/
def narrowed (e m : ℕ) : ℕ :=
  if e = 2047 then 255 * 2 ^ 23 + (if m = 0 then 0 else 2 ^ 22 + m / 2 ^ 29 % 2 ^ 22)
  else if 897 ≤ e then min (roundShift ((e - 896) * 2 ^ 52 + m) 29) (255 * 2 ^ 23)
  else roundShift ((if e = 0 then 0 else 2 ^ 52) + m) (29 + (897 - max e 1))

/-- The conversion to `float`. -/
def toSingle (x : Double) : Single :=
  ⟨UInt32.ofNat (x.sign * 2 ^ 31 + narrowed x.exponent x.mantissa)⟩

end Double

theorem roundShift_mul (q s : ℕ) : roundShift (q * 2 ^ s) s = q := by
  have hpos : 0 < 2 ^ s := Nat.two_pow_pos s
  rw [roundShift, Nat.mul_mod_left, Nat.mul_div_cancel _ hpos, if_pos (.inl (by omega))]

theorem roundShift_zero (s : ℕ) : roundShift 0 s = 0 := by
  simpa using roundShift_mul 0 s

namespace Single

theorem exponent_lt (x : Single) : x.exponent < 2 ^ 8 := Nat.mod_lt _ (by decide)

theorem mantissa_lt (x : Single) : x.mantissa < 2 ^ 23 := Nat.mod_lt _ (by decide)

theorem sign_le (x : Single) : x.sign ≤ 1 := by
  have := x.bits.toNat_lt
  rw [sign]
  omega

theorem bits_eq (x : Single) :
    x.bits.toNat = x.sign * 2 ^ 31 + (x.exponent * 2 ^ 23 + x.mantissa) := by
  simp only [sign, exponent, mantissa]
  omega

/-- The fields of the `double` that a number in range makes. -/
theorem fields_ofNat {s e m : ℕ} (hs : s ≤ 1) (he : e < 2 ^ 11) (hm : m < 2 ^ 52) :
    let x : Double := ⟨UInt64.ofNat (s * 2 ^ 63 + (e * 2 ^ 52 + m))⟩
    x.sign = s ∧ x.exponent = e ∧ x.mantissa = m := by
  have hbits : (UInt64.ofNat (s * 2 ^ 63 + (e * 2 ^ 52 + m))).toNat
      = s * 2 ^ 63 + (e * 2 ^ 52 + m) := by
    rw [UInt64.toNat_ofNat']
    omega
  simp only [Double.sign, Double.exponent, Double.mantissa, hbits]
  omega

/-- The significand of a subnormal number, shifted so that its highest bit is hidden. -/
theorem normalized {m : ℕ} (h0 : m ≠ 0) (hm : m < 2 ^ 23) :
    m.log2 ≤ 22 ∧ (m - 2 ^ m.log2) * 2 ^ (52 - m.log2) < 2 ^ 52 ∧
      2 ^ 52 + (m - 2 ^ m.log2) * 2 ^ (52 - m.log2) = m * 2 ^ (52 - m.log2) := by
  have hle : 2 ^ m.log2 ≤ m := Nat.log2_self_le h0
  have hlt : m < 2 ^ (m.log2 + 1) := Nat.lt_log2_self
  have hk : m.log2 ≤ 22 := by
    have := (Nat.log2_lt h0).mpr hm
    omega
  have hsplit : 2 ^ m.log2 * 2 ^ (52 - m.log2) = 2 ^ 52 := by
    rw [← Nat.pow_add]
    congr 1
    omega
  refine ⟨hk, ?_, ?_⟩
  · rw [← hsplit]
    refine Nat.mul_lt_mul_of_pos_right ?_ (Nat.two_pow_pos _)
    rw [Nat.pow_succ] at hlt
    omega
  · rw [← hsplit, ← Nat.add_mul]
    congr 1
    omega

/-- Narrowing the widened value of a number gives it back. -/
theorem narrowed_widened {e m : ℕ} (he : e < 2 ^ 8) (hm : m < 2 ^ 23)
    (hnan : ¬ (e = 255 ∧ m ≠ 0)) :
    ∃ e' m', widened e m = e' * 2 ^ 52 + m' ∧ e' < 2 ^ 11 ∧ m' < 2 ^ 52 ∧
      Double.narrowed e' m' = e * 2 ^ 23 + m := by
  by_cases h255 : e = 255
  · have hm0 : m = 0 := by
      by_contra h
      exact hnan ⟨h255, h⟩
    subst h255 hm0
    exact ⟨2047, 0, by simp [widened], by decide, by decide, by simp [Double.narrowed]⟩
  by_cases h0 : e = 0
  · subst h0
    by_cases hm0 : m = 0
    · subst hm0
      refine ⟨0, 0, by simp [widened], by decide, by decide, ?_⟩
      rw [Double.narrowed, if_neg (by decide), if_neg (by decide), if_pos rfl]
      exact roundShift_zero _
    · obtain ⟨hk, hlt, heq⟩ := normalized hm0 hm
      refine ⟨m.log2 + 874, _, by simp [widened, hm0], by omega, hlt, ?_⟩
      have hshift : 29 + (897 - max (m.log2 + 874) 1) = 52 - m.log2 := by omega
      rw [Double.narrowed, if_neg (by omega), if_neg (by omega), if_neg (by omega), heq, hshift,
        roundShift_mul]
      omega
  · refine ⟨e + 896, m * 2 ^ 29, by simp [widened, h255, h0], by omega, by omega, ?_⟩
    have hq : (e + 896 - 896) * 2 ^ 52 + m * 2 ^ 29 = (e * 2 ^ 23 + m) * 2 ^ 29 := by omega
    rw [Double.narrowed, if_neg (by omega), if_pos (by omega), hq, roundShift_mul]
    omega

/-- The `float` of a `double` that was a `float` is the same number. -/
theorem toSingle_toDouble {x : Single} (h : x.isNaN = false) : x.toDouble.toSingle = x := by
  have hnan : ¬ (x.exponent = 255 ∧ x.mantissa ≠ 0) := by
    intro hx
    simp [isNaN, hx] at h
  obtain ⟨e, m, hwide, he, hm, hnarrow⟩ := narrowed_widened x.exponent_lt x.mantissa_lt hnan
  obtain ⟨hs, he, hm⟩ := fields_ofNat x.sign_le he hm
  have hfields : x.toDouble.toSingle = ⟨UInt32.ofNat (x.sign * 2 ^ 31
      + (x.exponent * 2 ^ 23 + x.mantissa))⟩ := by
    rw [Double.toSingle, toDouble, hwide, hs, he, hm, hnarrow]
  rw [hfields, ← x.bits_eq, UInt32.ofNat_toNat]

end Single
end Cradle
