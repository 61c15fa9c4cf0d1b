import Cradle.Resolve.Retry
import Mathlib.Algebra.Order.Ring.Int
import Mathlib.Tactic.NormNum
import Mathlib.Tactic.Positivity

/-!
# Backoff delays

A retrier is made from any two integers, in a program or from a serialized request, and
waits four times longer after each attempt.  Nothing relates the two: the delays that the
number of attempts allows fit into 64 bits or they do not.
-/

namespace Cradle.Resolve.Retrier

/-! ## Where retriers come from -/

/-- `save_retrier_state`: the elements of an array. -/
def saveRetrierState (r : Retrier) : List ℤ := [r.baseMillis, r.maxAttempts]

/-- `load_retrier_state` from the elements of an array; `none` is the `type_error`, also of
an integer that does not fit. -/
def loadRetrierState (type : RetrierType) : List ℤ → Option Retrier
  | [baseMillis, maxAttempts] =>
      if h : (-2 ^ 63 ≤ baseMillis ∧ baseMillis < 2 ^ 63)
          ∧ (-2 ^ 31 ≤ maxAttempts ∧ maxAttempts < 2 ^ 31) then
        some ⟨type, baseMillis, maxAttempts, h.1, h.2⟩
      else none
  | _ => none

/-- Every retrier can come from a serialized request. -/
theorem loadRetrierState_saveRetrierState (r : Retrier) :
    loadRetrierState r.type r.saveRetrierState = some r :=
  dif_pos ⟨r.baseMillis_range, r.maxAttempts_range⟩

/-! ## What the delays are meant to be -/

variable {r : Retrier} {attempt : ℕ}

/-- There may be a retry after the attempt. -/
def Allows (r : Retrier) (attempt : ℕ) : Prop := (attempt : ℤ) + 1 < r.maxAttempts

/-- An exponential backoff: the delays are those of the formula, in bounds, positive and
strictly increasing. -/
structure BacksOff (r : Retrier) : Prop where
  shift : ∀ attempt, r.Allows attempt → attempt * 2 < 64
  exact : ∀ attempt e, r.Allows attempt → r.type.accepts e = true →
    r.handleException attempt e = .ok (some (r.baseMillis * 4 ^ attempt))
  positive : ∀ attempt millis, r.Allows attempt → r.delay attempt = some millis → 0 < millis
  increasing : ∀ a b aMillis bMillis, a < b → r.Allows b → r.delay a = some aMillis →
    r.delay b = some bMillis → aMillis < bMillis

/-- There is no retry, or the base is positive and the longest delay fits. -/
def Fits (r : Retrier) : Prop :=
  r.maxAttempts ≤ 1 ∨
    (0 < r.baseMillis ∧ r.baseMillis * 4 ^ (r.maxAttempts - 2).toNat < 2 ^ 63)

/-! ## When they are -/

/-- While a retry is allowed, the exceptions that are accepted lead to the delay. -/
theorem handleException_of_allows {e : TryExn} (h : r.Allows attempt)
    (he : r.type.accepts e = true) : r.handleException attempt e = .ok (r.delay attempt) := by
  refine handleException_of_not_stops ?_
  rintro (hnot | hlast)
  · simp [he] at hnot
  · rw [Allows] at h
    omega

theorem two_pow_mul_two (attempt : ℕ) : (2 : ℤ) ^ (attempt * 2) = 4 ^ attempt := by
  rw [Nat.mul_comm, pow_mul]
  norm_num

/-- Each class has an exception that is accepted. -/
theorem exists_accepts (type : RetrierType) : ∃ e, type.accepts e = true := by
  cases type with
  | default => exact ⟨.httpRequestFailure "", rfl⟩
  | proxy => exact ⟨.remoteError "" true, rfl⟩

/-- A delay that is defined is that of the formula. -/
theorem eq_of_delay {millis : ℤ} (h : r.delay attempt = some millis) :
    millis = r.baseMillis * 4 ^ attempt ∧ attempt * 2 < 64 ∧ millis < 2 ^ 63 := by
  simp only [delay, Option.ite_none_right_eq_some, two_pow_mul_two] at h
  obtain ⟨⟨hshift, -, hlt⟩, heq⟩ := h
  obtain rfl := Option.some.inj heq
  exact ⟨rfl, hshift, hlt⟩

/-- What a smaller power of four does not exceed. -/
theorem mul_four_pow_le {base : ℤ} (hbase : 0 < base) {a b : ℕ} (h : a ≤ b) :
    base * 4 ^ a ≤ base * 4 ^ b :=
  mul_le_mul_of_nonneg_left (pow_le_pow_right₀ (by norm_num) h) hbase.le

theorem mul_four_pow_lt {base : ℤ} (hbase : 0 < base) {a b : ℕ} (h : a < b) :
    base * 4 ^ a < base * 4 ^ b :=
  mul_lt_mul_of_pos_left (pow_lt_pow_right₀ (by norm_num) h) hbase

/-- The exponent of a delay that fits is small. -/
theorem exponent_lt {base : ℤ} (hbase : 0 < base) (h : base * 4 ^ attempt < 2 ^ 63) :
    attempt * 2 < 64 := by
  by_contra hle
  have hpow : (4 : ℤ) ^ 32 ≤ 4 ^ attempt := pow_le_pow_right₀ (by norm_num) (by omega)
  have hmul : (4 : ℤ) ^ attempt ≤ base * 4 ^ attempt := le_mul_of_one_le_left (by positivity) hbase
  have : (2 : ℤ) ^ 63 < 4 ^ 32 := by norm_num
  omega

/-- The delay of an attempt that may be followed by a retry. -/
theorem Fits.delay (h : r.Fits) (ha : r.Allows attempt) : 0 < r.baseMillis
    ∧ attempt * 2 < 64 ∧ r.delay attempt = some (r.baseMillis * 4 ^ attempt) := by
  rw [Allows] at ha
  rcases h with hnone | ⟨hbase, hlast⟩
  · omega
  · have hlt : r.baseMillis * 4 ^ attempt < 2 ^ 63 :=
      (mul_four_pow_le hbase (by omega)).trans_lt hlast
    have hpos : 0 < r.baseMillis * 4 ^ attempt := by positivity
    have hshift := exponent_lt hbase hlt
    refine ⟨hbase, hshift, ?_⟩
    rw [Retrier.delay, two_pow_mul_two]
    exact if_pos ⟨hshift, by omega, hlt⟩

/-- The backoff is right for all attempts exactly if the longest delay fits. -/
theorem backsOff_iff (r : Retrier) : r.BacksOff ↔ r.Fits := by
  constructor
  · intro h
    by_cases hnone : r.maxAttempts ≤ 1
    · exact .inl hnone
    · refine .inr ?_
      obtain ⟨e, he⟩ := exists_accepts r.type
      have hdelay : ∀ attempt, r.Allows attempt →
          r.delay attempt = some (r.baseMillis * 4 ^ attempt) := by
        intro attempt ha
        have hexact := h.exact attempt e ha he
        rw [handleException_of_allows ha he] at hexact
        exact Except.ok.inj hexact
      have hfirst : r.Allows 0 := by
        rw [Allows]
        omega
      have hlast : r.Allows (r.maxAttempts - 2).toNat := by
        rw [Allows]
        omega
      constructor
      · simpa using h.positive 0 _ hfirst (hdelay 0 hfirst)
      · exact (eq_of_delay (hdelay _ hlast)).2.2
  · intro h
    constructor
    · exact fun attempt ha => (h.delay ha).2.1
    · intro attempt e ha he
      rw [handleException_of_allows ha he, (h.delay ha).2.2]
    · intro attempt millis ha hmillis
      have hbase := (h.delay ha).1
      rw [(eq_of_delay hmillis).1]
      positivity
    · intro a b aMillis bMillis hab hb ha' hb'
      rw [(eq_of_delay ha').1, (eq_of_delay hb').1]
      exact mul_four_pow_lt (h.delay hb).1 hab

/-- With the base of the default retriers and 40 attempts, the delay after the attempt with
number 29 does not fit. -/
theorem not_backsOff_forty : ¬ ∀ r : Retrier, r.BacksOff := by
  intro h
  have hexact := (h ⟨.default, 100, 40, by omega, by omega⟩).exact 29
    (.httpRequestFailure "status_code 500") (by rw [Allows]; decide) rfl
  exact absurd hexact (by decide)

/-- The default retriers back off. -/
example : Fits defaultRetrier := .inr (by decide)

end Cradle.Resolve.Retrier
