import Mathlib.Algebra.Order.Group.Abs
import Mathlib.Algebra.Order.Ring.Int
import Cradle.Typing.Schema

/-!
# The numbers that doubles stand for

A finite double is a multiple of the smallest positive one, so that its number can be given as
an integer.  A double that passes the cast to an `integer` is that integer, and the double
made of an `integer` is as near to it as any.
-/

namespace Cradle

namespace Double

/-- The smallest positive double is 2 to the power of minus this. -/
def leastExponent : ℕ := 1074

/-- How many times 1 is the smallest positive double. -/
def unitsOfOne : ℕ := 2 ^ leastExponent

/-- The number without its sign, in units of the smallest positive double. -/
def unitsOf (e m : ℕ) : ℕ := if e = 0 then m else (2 ^ 52 + m) * 2 ^ (e - 1)

def units (x : Double) : ℤ :=
  if x.sign = 0 then unitsOf x.exponent x.mantissa else -unitsOf x.exponent x.mantissa

/-- Neither infinite nor a NaN. -/
def isFinite (x : Double) : Bool := x.exponent != 2047

/-- The double is the integer. -/
structure IsNumber (x : Double) (i : ℤ) : Prop where
  finite : x.isFinite = true
  units_eq : x.units = i * unitsOfOne

/-- No double is nearer to the integer. -/
structure IsNearest (x : Double) (i : ℤ) : Prop where
  finite : x.isFinite = true
  nearest : ∀ y : Double, y.isFinite = true →
    (x.units - i * unitsOfOne).natAbs ≤ (y.units - i * unitsOfOne).natAbs

variable {x y : Double} {i : ℤ} {n e m s : ℕ}

theorem unitsOfOne_pos : 0 < unitsOfOne := Nat.two_pow_pos _

theorem unitsOf_of_pos (he : e ≠ 0) : unitsOf e m = (2 ^ 52 + m) * 2 ^ (e - 1) := if_neg he

theorem IsNumber.unique {j : ℤ} (h : x.IsNumber i) (h' : x.IsNumber j) : i = j := by
  have hpos : (unitsOfOne : ℤ) ≠ 0 := Int.natCast_ne_zero.mpr unitsOfOne_pos.ne'
  exact mul_right_cancel₀ hpos (h.units_eq.symm.trans h'.units_eq)

/-! ## The grid of the doubles -/

/-- How far apart, in units, the doubles from the `n`-th power of 2 on are at least. -/
def spacing (n : ℕ) : ℕ := 2 ^ (n + 1022)

theorem two_pow_mul_spacing (n : ℕ) : 2 ^ 52 * spacing n = 2 ^ n * unitsOfOne := by
  have hsum : 52 + (n + 1022) = n + leastExponent := by
    rw [leastExponent]
    omega
  rw [spacing, unitsOfOne, ← Nat.pow_add, ← Nat.pow_add, hsum]

theorem spacing_add (s : ℕ) : spacing (52 + s) = 2 ^ s * unitsOfOne := by
  have hsum : 52 + s + 1022 = s + leastExponent := by
    rw [leastExponent]
    omega
  rw [spacing, unitsOfOne, ← Nat.pow_add, hsum]

theorem two_pow_sub_mul_spacing (h : n ≤ 52) : 2 ^ (52 - n) * spacing n = unitsOfOne := by
  have hsum : 52 - n + (n + 1022) = leastExponent := by
    rw [leastExponent]
    omega
  rw [spacing, unitsOfOne, ← Nat.pow_add, hsum]

theorem mantissa_lt (x : Double) : x.mantissa < 2 ^ 52 := Nat.mod_lt _ (by decide)

theorem exponent_lt (x : Double) : x.exponent < 2 ^ 11 := Nat.mod_lt _ (by decide)

theorem magnitude_eq (x : Double) : x.magnitude = x.exponent * 2 ^ 52 + x.mantissa := by
  simp only [magnitude, exponent, mantissa]
  omega

theorem natAbs_units (x : Double) : x.units.natAbs = unitsOf x.exponent x.mantissa := by
  rw [units]
  split
  · rfl
  · exact Int.natAbs_neg _

/-- A double is on the grid of the doubles from a power of 2 on, or it is below that power. -/
theorem units_grid (x : Double) (n : ℕ) :
    spacing n ∣ x.units.natAbs ∨ x.units.natAbs < 2 ^ n * unitsOfOne := by
  have hm := x.mantissa_lt
  rw [natAbs_units]
  by_cases he : n + 1022 ≤ x.exponent - 1
  · left
    rw [unitsOf_of_pos (by omega)]
    exact Dvd.dvd.mul_left (Nat.pow_dvd_pow 2 he) _
  · right
    rw [← two_pow_mul_spacing, unitsOf]
    split
    · exact hm.trans_le (Nat.le_mul_of_pos_right _ (Nat.two_pow_pos _))
    · obtain ⟨e, he'⟩ : ∃ e, n + 1022 = x.exponent - 1 + 1 + e :=
        ⟨n + 1022 - (x.exponent - 1 + 1), by omega⟩
      have hspacing : 2 * 2 ^ (x.exponent - 1) ≤ spacing n := by
        rw [spacing, he', ← Nat.pow_succ']
        exact Nat.pow_le_pow_right (by decide) (Nat.le_add_right _ _)
      calc (2 ^ 52 + x.mantissa) * 2 ^ (x.exponent - 1)
          < (2 ^ 52 + 2 ^ 52) * 2 ^ (x.exponent - 1) :=
            Nat.mul_lt_mul_of_pos_right (Nat.add_lt_add_left hm _) (Nat.two_pow_pos _)
        _ = 2 ^ 52 * (2 * 2 ^ (x.exponent - 1)) := by
            rw [← Nat.two_mul, Nat.mul_comm 2, Nat.mul_assoc]
        _ ≤ 2 ^ 52 * spacing n := Nat.mul_le_mul_left _ hspacing

/-! ## The double made of an integer -/

/-- The significand of the double, its highest bit included. -/
def significand (n : ℕ) : ℕ :=
  if n.log2 ≤ 52 then n * 2 ^ (52 - n.log2) else roundShift n (n.log2 - 52)

theorem roundShift_near (q s : ℕ) :
    2 * q ≤ 2 * (roundShift q s * 2 ^ s) + 2 ^ s ∧
      2 * (roundShift q s * 2 ^ s) ≤ 2 * q + 2 ^ s := by
  have hdiv := Nat.div_add_mod q (2 ^ s)
  have hmod := Nat.mod_lt q (Nat.two_pow_pos s)
  rw [Nat.mul_comm] at hdiv
  rw [roundShift]
  split
  · omega
  · rw [Nat.add_mul]
    omega

theorem significand_bounds (hn : n ≠ 0) : 2 ^ 52 ≤ significand n ∧ significand n ≤ 2 ^ 53 := by
  have hle : 2 ^ n.log2 ≤ n := Nat.log2_self_le hn
  have hlt : n < 2 ^ (n.log2 + 1) := Nat.lt_log2_self
  rw [significand]
  split
  case isTrue hlog =>
      have hsplit : 2 ^ n.log2 * 2 ^ (52 - n.log2) = 2 ^ 52 := by
        rw [← Nat.pow_add, Nat.add_sub_cancel' hlog]
      have hhigh : 2 ^ (n.log2 + 1) * 2 ^ (52 - n.log2) = 2 ^ 53 := by
        rw [Nat.pow_succ, Nat.mul_right_comm, hsplit, ← Nat.pow_succ]
      exact ⟨hsplit ▸ Nat.mul_le_mul_right _ hle, hhigh ▸ Nat.mul_le_mul_right _ hlt.le⟩
  case isFalse hlog =>
      obtain ⟨s, hs⟩ : ∃ s, n.log2 = 52 + s := ⟨n.log2 - 52, by omega⟩
      have hpow : 0 < 2 ^ s := Nat.two_pow_pos s
      have hlow : 2 ^ 52 ≤ n / 2 ^ s := by
        rw [Nat.le_div_iff_mul_le hpow, ← Nat.pow_add, ← hs]
        exact hle
      have hhigh : n / 2 ^ s < 2 ^ 53 := by
        rw [Nat.div_lt_iff_lt_mul hpow, ← Nat.pow_add, Nat.add_right_comm 52 1, ← hs]
        exact hlt
      rw [hs, Nat.add_sub_cancel_left, roundShift]
      split
      · omega
      · omega

/-- The fields of the double made of an `integer` other than 0. -/
theorem ofInteger_fields (hi : i.natAbs ≤ 2 ^ 63) (h0 : i ≠ 0) :
    (ofInteger i).sign = (if i < 0 then 1 else 0) ∧ (ofInteger i).exponent < 2047 ∧
      (ofInteger i).exponent * 2 ^ 52 + (ofInteger i).mantissa
        = (i.natAbs.log2 + 1022) * 2 ^ 52 + significand i.natAbs := by
  have hn : i.natAbs ≠ 0 := Int.natAbs_ne_zero.mpr h0
  obtain ⟨hlow, hhigh⟩ := significand_bounds hn
  have hlog : i.natAbs.log2 ≤ 63 := by
    have := (Nat.log2_lt hn).mpr (Nat.lt_of_le_of_lt hi (by decide : 2 ^ 63 < 2 ^ 64))
    omega
  obtain ⟨M, hM⟩ : ∃ M, (i.natAbs.log2 + 1022) * 2 ^ 52 + significand i.natAbs = M := ⟨_, rfl⟩
  have hbits : ofInteger i = ⟨UInt64.ofNat ((if i < 0 then 1 else 0) * 2 ^ 63 +
      (M / 2 ^ 52 * 2 ^ 52 + M % 2 ^ 52))⟩ := by
    have hsign : (if i < 0 then 2 ^ 63 else 0) = (if i < 0 then 1 else 0) * 2 ^ 63 := by
      split <;> rfl
    rw [Nat.div_add_mod', ← hM, ← hsign, ofInteger]
    simp only [hn, if_false, significand]
  have hs : (if i < 0 then 1 else 0) ≤ 1 := by split <;> decide
  have he : M / 2 ^ 52 < 2047 := by omega
  have hfields := Single.fields_ofNat hs (he.trans (by decide)) (Nat.mod_lt M (Nat.two_pow_pos 52))
  rw [hbits, hM]
  obtain ⟨hsign, hexponent, hmantissa⟩ := hfields
  rw [hsign, hexponent, hmantissa]
  exact ⟨rfl, he, Nat.div_add_mod' _ _⟩

theorem unitsOf_ofInteger (hi : i.natAbs ≤ 2 ^ 63) (h0 : i ≠ 0) :
    unitsOf (ofInteger i).exponent (ofInteger i).mantissa
      = significand i.natAbs * spacing i.natAbs.log2 := by
  obtain ⟨-, -, hfields⟩ := ofInteger_fields hi h0
  obtain ⟨hlow, hhigh⟩ := significand_bounds (Int.natAbs_ne_zero.mpr h0)
  have hm := (ofInteger i).mantissa_lt
  generalize (ofInteger i).exponent = e at hfields ⊢
  generalize (ofInteger i).mantissa = m at hfields hm ⊢
  generalize significand i.natAbs = q at hfields hlow hhigh ⊢
  rw [unitsOf_of_pos (by omega), spacing]
  rcases Nat.lt_or_ge q (2 ^ 53) with hq | hq
  · have he : e - 1 = i.natAbs.log2 + 1022 := by omega
    have hqm : 2 ^ 52 + m = q := by omega
    rw [he, hqm]
  · have he : e - 1 = i.natAbs.log2 + 1022 + 1 := by omega
    have hqm : 2 * (2 ^ 52 + m) = q := by omega
    have hpow : 2 ^ (i.natAbs.log2 + 1022 + 1) = 2 * 2 ^ (i.natAbs.log2 + 1022) := Nat.pow_succ'
    rw [he, ← hqm, hpow, Nat.mul_left_comm, Nat.mul_assoc]

theorem isFinite_ofInteger (hi : i.natAbs ≤ 2 ^ 63) : (ofInteger i).isFinite = true := by
  by_cases h0 : i = 0
  · subst h0
    decide
  · obtain ⟨-, hexponent, -⟩ := ofInteger_fields hi h0
    exact bne_iff_ne.mpr hexponent.ne

theorem isNaN_of_isFinite (h : x.isFinite = true) : x.isNaN = false := by
  have he : x.exponent ≠ 2047 := bne_iff_ne.mp h
  have helt := x.exponent_lt
  have hm := x.mantissa_lt
  rw [isNaN, decide_eq_false_iff_not, magnitude_eq]
  omega

/-! ## No double is nearer -/

/-- Among the multiples of a power of 2 none is nearer than the rounded one. -/
theorem roundShift_nearest (q s : ℕ) (j : ℤ) :
    ((roundShift q s * 2 ^ s : ℕ) - (q : ℤ)).natAbs ≤ (j * (2 ^ s : ℕ) - q).natAbs := by
  obtain ⟨hlow, hhigh⟩ := roundShift_near q s
  generalize roundShift q s = r at hlow hhigh ⊢
  generalize 2 ^ s = P at hlow hhigh ⊢
  rcases lt_trichotomy j r with hj | rfl | hj
  · have hstep : (j + 1) * P ≤ (r : ℤ) * P := mul_le_mul_of_nonneg_right hj (Int.natCast_nonneg P)
    rw [add_mul, one_mul] at hstep
    push_cast
    omega
  · push_cast
    exact le_refl _
  · have hstep : ((r : ℤ) + 1) * P ≤ j * P := mul_le_mul_of_nonneg_right hj (Int.natCast_nonneg P)
    rw [add_mul, one_mul] at hstep
    push_cast
    omega

theorem significand_near (hn : n ≠ 0) {u : ℤ}
    (hu : spacing n.log2 ∣ u.natAbs ∨ u.natAbs < 2 ^ n.log2 * unitsOfOne) :
    ((significand n * spacing n.log2 : ℕ) - (n * unitsOfOne : ℕ) : ℤ).natAbs ≤
      (u - (n * unitsOfOne : ℕ)).natAbs := by
  by_cases hlog : n.log2 ≤ 52
  · have hexact : significand n * spacing n.log2 = n * unitsOfOne := by
      rw [significand, if_pos hlog, Nat.mul_assoc, two_pow_sub_mul_spacing hlog]
    rw [hexact, Int.sub_self]
    exact Nat.zero_le _
  · obtain ⟨s, hs⟩ : ∃ s, n.log2 = 52 + s := ⟨n.log2 - 52, by omega⟩
    have hround : significand n = roundShift n s := by
      rw [significand, if_neg hlog, hs, Nat.add_sub_cancel_left]
    have hscale (j : ℤ) : (j * (spacing n.log2 : ℕ) - (n * unitsOfOne : ℕ)).natAbs
        = (j * (2 ^ s : ℕ) - n).natAbs * unitsOfOne := by
      rw [hs, spacing_add, Int.natCast_mul, Int.natCast_mul, ← Int.mul_assoc, ← Int.sub_mul,
        Int.natAbs_mul, Int.natAbs_natCast]
    have hnear (j : ℤ) :
        ((significand n * spacing n.log2 : ℕ) - (n * unitsOfOne : ℕ) : ℤ).natAbs ≤
          (j * (spacing n.log2 : ℕ) - (n * unitsOfOne : ℕ)).natAbs := by
      rw [Int.natCast_mul (significand n), hscale, hscale, hround, ← Int.natCast_mul]
      exact Nat.mul_le_mul_right _ (roundShift_nearest n s j)
    rcases hu with hdvd | hless
    · obtain ⟨j, rfl⟩ := Int.natCast_dvd.mpr hdvd
      rw [Int.mul_comm]
      exact hnear j
    · -- The power of 2 that the double is below is itself on the grid.
      have hle := Nat.mul_le_mul_right unitsOfOne (Nat.log2_self_le hn)
      have hpower : ((2 ^ 52 : ℕ) : ℤ) * (spacing n.log2 : ℕ) = (2 ^ n.log2 * unitsOfOne : ℕ) := by
        rw [← Int.natCast_mul, two_pow_mul_spacing]
      have hnearest := hnear (2 ^ 52 : ℕ)
      rw [hpower] at hnearest
      omega

theorem isNearest_ofInteger (hi : i.natAbs ≤ 2 ^ 63) : (ofInteger i).IsNearest i := by
  refine ⟨isFinite_ofInteger hi, fun y _ => ?_⟩
  by_cases h0 : i = 0
  · subst h0
    have hzero : (ofInteger 0).units = 0 := by decide
    rw [hzero, Int.zero_mul]
    exact Nat.zero_le _
  · obtain ⟨hsign, -, -⟩ := ofInteger_fields hi h0
    have hn : i.natAbs ≠ 0 := Int.natAbs_ne_zero.mpr h0
    have hgrid := units_grid y i.natAbs.log2
    rw [units, hsign, unitsOf_ofInteger hi h0]
    by_cases hneg : i < 0
    · have hmul : i * unitsOfOne = -((i.natAbs * unitsOfOne : ℕ) : ℤ) := by
        rw [Int.natCast_mul, Int.ofNat_natAbs_of_nonpos hneg.le, Int.neg_mul, Int.neg_neg]
      have hnear := significand_near hn (u := -y.units) (by rwa [Int.natAbs_neg])
      rw [if_pos hneg, if_neg Nat.one_ne_zero, hmul]
      omega
    · have hmul : i * unitsOfOne = ((i.natAbs * unitsOfOne : ℕ) : ℤ) := by
        rw [Int.natCast_mul, Int.natAbs_of_nonneg (by omega)]
      rw [if_neg hneg, if_pos rfl, hmul]
      exact significand_near hn hgrid

/-! ## The integer that a double is cast to -/

/-- The number without its sign and fraction. -/
def wholePart (e m : ℕ) : ℕ :=
  if e = 0 then 0
  else if 1075 ≤ e then (2 ^ 52 + m) * 2 ^ (e - 1075)
  else (2 ^ 52 + m) / 2 ^ (1075 - e)

theorem truncate_eq (x : Double) :
    x.truncate = if x.sign = 0 then (wholePart x.exponent x.mantissa : ℤ)
      else -wholePart x.exponent x.mantissa := rfl

theorem natAbs_truncate (x : Double) :
    x.truncate.natAbs = wholePart x.exponent x.mantissa := by
  rw [truncate_eq]
  split
  · rfl
  · exact Int.natAbs_neg _

theorem units_of_whole
    (h : unitsOf x.exponent x.mantissa = wholePart x.exponent x.mantissa * unitsOfOne) :
    x.units = x.truncate * unitsOfOne := by
  rw [units, truncate_eq, h]
  split
  · rw [Int.natCast_mul]
  · rw [Int.natCast_mul, Int.neg_mul]

theorem fields_of_magnitude (h : x.magnitude = y.magnitude) :
    x.exponent = y.exponent ∧ x.mantissa = y.mantissa := by
  rw [magnitude_eq, magnitude_eq] at h
  have hx := x.mantissa_lt
  have hy := y.mantissa_lt
  omega

theorem magnitude_of_equals (h : x.equals y = true) : x.magnitude = y.magnitude := by
  have hrank : x.rank = y.rank := by
    simp only [equals, Bool.and_eq_true, beq_iff_eq] at h
    exact h.2
  simp only [rank] at hrank
  split at hrank <;> split at hrank <;> omega

/-- A double with a fraction is not equal to the double made of the number without it. -/
theorem units_of_equals (h : (ofInteger x.truncate).equals x = true) :
    x.units = x.truncate * unitsOfOne := by
  refine units_of_whole ?_
  obtain ⟨hexponent, hmantissa⟩ := fields_of_magnitude (magnitude_of_equals h)
  have hm := x.mantissa_lt
  by_cases hhigh : 1075 ≤ x.exponent
  · have hsum : x.exponent - 1 = x.exponent - 1075 + leastExponent := by
      rw [leastExponent]
      omega
    rw [unitsOf_of_pos (by omega), wholePart, if_neg (by omega), if_pos hhigh, hsum, Nat.pow_add,
      ← Nat.mul_assoc, unitsOfOne]
  by_cases h0 : x.truncate = 0
  · have hwhole : wholePart x.exponent x.mantissa = 0 := by rw [← natAbs_truncate, h0]; rfl
    rw [h0] at hexponent hmantissa
    rw [hwhole, ← hexponent, ← hmantissa, Nat.zero_mul]
    decide
  · -- The number has at most 53 bits, so the double made of it is exact.
    have hless : x.truncate.natAbs < 2 ^ 53 := by
      rw [natAbs_truncate, wholePart, if_neg hhigh]
      split
      · decide
      · exact (Nat.div_le_self _ _).trans_lt (by omega)
    have hlog : x.truncate.natAbs.log2 ≤ 52 := by
      have := (Nat.log2_lt (Int.natAbs_ne_zero.mpr h0)).mpr hless
      omega
    rw [← hexponent, ← hmantissa, unitsOf_ofInteger (hless.le.trans (by decide)) h0, significand,
      if_pos hlog, Nat.mul_assoc, two_pow_sub_mul_spacing hlog, hexponent, hmantissa,
      natAbs_truncate]

end Double

open Double in
/-- What a double is cast to is its number. -/
theorem isNumber_of_cast {x : Double} {i : ℤ} (h : (numericCastInteger x).Returns i)
    (he : (ofInteger i).equals x = true) : x.IsNumber i := by
  rw [numericCastInteger] at h
  split at h
  · exact absurd h Bounded.not_returns_throw
  split at h
  · exact absurd h Bounded.not_returns_throw
  rename_i hlow hhigh
  obtain rfl := Bounded.returns_pure.mp h
  refine ⟨bne_iff_ne.mpr fun hexponent => ?_, units_of_equals he⟩
  have hnan : x.isNaN = false := by
    simp only [Double.equals, Bool.and_eq_true, Bool.not_eq_true'] at he
    exact he.1.2
  have hlowest : (ofInteger (-2 ^ 63)).isNaN = false ∧
      (ofInteger (-2 ^ 63)).rank = -(1086 * 2 ^ 52) := by decide
  have hhighest : (ofInteger (2 ^ 63)).isNaN = false ∧
      (ofInteger (2 ^ 63)).rank = 1086 * 2 ^ 52 := by decide
  simp only [le, hnan, hlowest, hhighest, Bool.not_false, Bool.true_and, decide_eq_true_eq]
    at hlow hhigh
  have hmagnitude := x.magnitude_eq
  rw [hexponent] at hmagnitude
  simp only [rank] at hlow hhigh
  split at hlow <;> omega

end Cradle
