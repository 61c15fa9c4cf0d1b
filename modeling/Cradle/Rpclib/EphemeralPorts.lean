import Cradle.Rpclib.ContainedProxyPool

/-!
# The owner of the ports over all sequences of calls

The search for an unused number starts at a cursor, goes round the range once, and gives up
when it is back at the cursor.  So whatever the cursor and the ports in use are, it ends, and
it fails only if all ports are in use.
-/

namespace Cradle.Rpclib

namespace EphemeralPortOwner

variable {o : EphemeralPortOwner}

/-! ## The search ends -/

/-- The loop of `find_unused_number`, from the number `n` on, ends with `r`. -/
inductive Ends (o : EphemeralPortOwner) : ℕ → Except ClientError ℕ → Prop
  | found {n : ℕ} (hfree : o.inUse (n - firstNumber) = false) : Ends o n (.ok n)
  | gaveUp {n : ℕ} (hused : o.inUse (n - firstNumber) = true)
      (hlast : increase n = o.nextNumber) :
      Ends o n (.error (.lengthError "no unused emphemeral port"))
  | next {n : ℕ} {r : Except ClientError ℕ} (hused : o.inUse (n - firstNumber) = true)
      (hlast : increase n ≠ o.nextNumber) (rest : Ends o (increase n) r) : Ends o n r

/-- It ends in one way only. -/
theorem Ends.unique {n : ℕ} {r r' : Except ClientError ℕ} (h : Ends o n r) (h' : Ends o n r') :
    r = r' := by
  induction h with
  | found hfree =>
      cases h' with
      | found => rfl
      | gaveUp hused => simp [hfree] at hused
      | next hused => simp [hfree] at hused
  | gaveUp hused hlast =>
      cases h' with
      | found hfree => simp [hfree] at hused
      | gaveUp => rfl
      | next _ hlast' => exact absurd hlast hlast'
  | next hused hlast _ ih =>
      cases h' with
      | found hfree => simp [hfree] at hused
      | gaveUp _ hlast' => exact absurd hlast' hlast
      | next _ _ rest' => exact ih rest'

/-- In each round the loop has as many numbers before it as there are rounds left. -/
theorem ends_findUnusedFrom {fuel round : ℕ} (h : round + fuel = rangeSize) (hfuel : 0 < fuel) :
    Ends o (o.numberAt round) (o.findUnusedFrom fuel (o.numberAt round)) := by
  induction fuel generalizing round with
  | zero => omega
  | succ fuel ih =>
      have hlast : increase (o.numberAt round) = o.nextNumber ↔ round + 1 = rangeSize := by
        rw [increase_numberAt]
        apply numberAt_eq_nextNumber
        omega
      rw [findUnusedFrom]
      split
      · rename_i hfree
        exact .found hfree
      · rename_i hused
        have hused : o.inUse (o.numberAt round - firstNumber) = true := by simpa using hused
        split
        · rename_i hnext
          exact .gaveUp hused hnext
        · rename_i hnext
          refine .next hused hnext ?_
          rw [hlast] at hnext
          rw [increase_numberAt]
          apply ih
          · omega
          · omega

theorem ends_findUnusedNumber : Ends o o.nextNumber o.findUnusedNumber := by
  have h : Ends o (o.numberAt 0) (o.findUnusedFrom rangeSize (o.numberAt 0)) :=
    ends_findUnusedFrom (Nat.zero_add rangeSize) (by decide)
  rwa [numberAt_zero] at h

/-! ## The calls -/

/-- A call of one of the two functions. -/
inductive PortCall
  | allocPort
  | freePort (portNumber : UInt16)
  deriving DecidableEq, Repr

/-- The owner after a call.  A call that throws has written nothing. -/
def after (o : EphemeralPortOwner) : PortCall → EphemeralPortOwner
  | .allocPort =>
      match o.allocPort with
      | .ok (_, o') => o'
      | .error _ => o
  | .freePort portNumber =>
      match o.freePort portNumber.toNat with
      | .ok o' => o'
      | .error _ => o

/-- The search of `alloc_port` ends, and `alloc_port` throws exactly if all ports of the range
are in use, and otherwise returns one that was not and marks this one only. -/
structure AllocatesExactly (o : EphemeralPortOwner) : Prop where
  ends : ∀ r, Ends o o.nextNumber r ↔ r = o.findUnusedNumber
  throws_iff : (∃ e, o.allocPort = .error e)
    ↔ ∀ n, firstNumber ≤ n → n < firstNumber + rangeSize → o.InUse n
  returns : ∀ n o', o.allocPort = .ok (n, o') →
    (firstNumber ≤ n ∧ n < firstNumber + rangeSize) ∧ ¬ o.InUse n
      ∧ ∀ m, o'.InUse m ↔ m = n ∨ o.InUse m

/-- `free_port` throws and changes nothing exactly if the port is outside the range or not in
use, and otherwise frees this one only. -/
structure FreesExactly (o : EphemeralPortOwner) (portNumber : UInt16) : Prop where
  throws_iff : ((∃ e, o.freePort portNumber.toNat = .error e) ∧ o.after (.freePort portNumber) = o)
    ↔ ¬ (firstNumber ≤ portNumber.toNat ∧ portNumber.toNat < firstNumber + rangeSize)
      ∨ ¬ o.InUse portNumber.toNat
  returns : ∀ o', o.freePort portNumber.toNat = .ok o' →
    ∀ m, o'.InUse m ↔ m ≠ portNumber.toNat ∧ o.InUse m

theorem allocPort_error_of_all (h : ∀ n, ¬ o.Free n) : ∃ e, o.allocPort = .error e := by
  cases halloc : o.allocPort with
  | error e => exact ⟨e, rfl⟩
  | ok p => exact absurd (allocPort_ok halloc).1 (h p.1)

theorem allocatesExactly (o : EphemeralPortOwner) : o.AllocatesExactly where
  ends r := by
    constructor
    · exact fun h => h.unique ends_findUnusedNumber
    · rintro rfl
      exact ends_findUnusedNumber
  throws_iff := by
    constructor
    · rintro ⟨e, he⟩ n hlow hhigh
      by_contra hfree
      exact allocPort_error he n (free_iff.mpr ⟨⟨hlow, hhigh⟩, hfree⟩)
    · intro h
      apply allocPort_error_of_all
      intro n hfree
      obtain ⟨hrange, hnot⟩ := free_iff.mp hfree
      exact hnot (h n hrange.1 hrange.2)
  returns n o' h := by
    obtain ⟨hfree, hmarks⟩ := allocPort_ok h
    obtain ⟨hrange, hnot⟩ := free_iff.mp hfree
    exact ⟨hrange, hnot, hmarks⟩

theorem freePort_error {n : ℕ} (h : ¬ o.InUse n) : ∃ e, o.freePort n = .error e := by
  rw [freePort]
  split
  · exact ⟨_, rfl⟩
  · rename_i hrange
    rw [if_pos]
    · exact ⟨_, rfl⟩
    · by_contra hused
      exact h ⟨by omega, by simpa using hused⟩

theorem freesExactly (o : EphemeralPortOwner) (portNumber : UInt16) :
    o.FreesExactly portNumber := by
  by_cases h : o.InUse portNumber.toNat
  · obtain ⟨o', ho', hfrees⟩ := freePort_of_inUse h
    constructor
    · simp [ho', h, h.1]
    · intro o'' ho''
      rw [ho'] at ho''
      rw [← Except.ok.inj ho'']
      exact hfrees
  · obtain ⟨e, he⟩ := freePort_error h
    constructor
    · simp [after, he, h]
    · intro o' ho'
      rw [he] at ho'
      cases ho'

/-! ## Sequences of calls -/

/-- **The ports are allocated exactly**, after any sequence of calls, and the cursor is in the
range. -/
theorem exact_of_calls (calls : List PortCall) :
    (calls.foldl after {}).AllocatesExactly
      ∧ (∀ portNumber, (calls.foldl after {}).FreesExactly portNumber)
      ∧ firstNumber ≤ (calls.foldl after {}).nextNumber
      ∧ (calls.foldl after {}).nextNumber < firstNumber + rangeSize :=
  ⟨allocatesExactly _, fun portNumber => freesExactly _ portNumber,
    (calls.foldl after {}).nextNumber_range⟩

end EphemeralPortOwner
end Cradle.Rpclib
