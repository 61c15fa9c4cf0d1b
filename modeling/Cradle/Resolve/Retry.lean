import Cradle.Caching.Immutable
import Cradle.Lib.Coro
import Mathlib.Algebra.Group.Nat.Defs

/-!
# Trying again

`resolve_request_with_retry` resolves a request in a number of tries; after each failure
the retrier of the request decides whether there will be another one, and after how long.
The loop is meant to be transparent: what leaves it is how the last try ended.  Two things
get in the way.  A try registers its cache record with the lock that the caller has asked
for, before it knows its outcome, and a lock takes only one record.  And the delays grow
until they do not fit into 64 bits.

A try fails early if that happens before it registers the record: while the arguments of
a value-based request are resolved, or while a remote resolution waits for its response.
A resolution that waits for the delay is not cancelled here.
-/

namespace Cradle.Resolve

open Caching

/-! ## Retriers -/

/-- The exceptions that the retriers tell apart. -/
inductive TryExn
  | httpRequestFailure (what : String)
  | remoteError (what : String) (retryable : Bool)
  | logicError (what : String)
  | other (what : String)
  deriving DecidableEq, Repr

/-- The classes derived from `backoff_retrier_base`. -/
inductive RetrierType
  | default | proxy
  deriving DecidableEq, Repr

/-- Whether the exception may lead to another try. -/
def RetrierType.accepts : RetrierType → TryExn → Bool
  | .default, .httpRequestFailure _ => true
  | .proxy, .remoteError _ retryable => retryable
  | _, _ => false

/-- A retrier, whose members are an `int64_t` and an `int`. -/
structure Retrier where
  type : RetrierType
  baseMillis : ℤ
  maxAttempts : ℤ
  baseMillis_range : -2 ^ 63 ≤ baseMillis ∧ baseMillis < 2 ^ 63
  maxAttempts_range : -2 ^ 31 ≤ maxAttempts ∧ maxAttempts < 2 ^ 31

namespace Retrier

/-- The exponential backoff of `attempt_retry`, if the shift and the product are defined. -/
def delay (r : Retrier) (attempt : ℕ) : Option ℤ :=
  let millis := r.baseMillis * 2 ^ (attempt * 2)
  if attempt * 2 < 64 ∧ -2 ^ 63 ≤ millis ∧ millis < 2 ^ 63 then some millis else none

/-- `handle_exception`, which throws the exception again or returns the delay. -/
def handleException (r : Retrier) (attempt : ℕ) (e : TryExn) : Except TryExn (Option ℤ) :=
  if ¬ r.type.accepts e then .error e
  else if r.maxAttempts ≤ attempt + 1 then .error e
  else .ok (r.delay attempt)

end Retrier

/-! ## One try -/

/-- How a try ends, when nothing gets in its way. -/
inductive TryOutcome (V : Type*)
  | success (v : V)
  /-- An exception before the cache record is registered with the lock. -/
  | early (e : TryExn)
  /-- An exception after that. -/
  | late (e : TryExn)
  deriving DecidableEq

namespace TryOutcome

variable {V : Type*}

def result : TryOutcome V → Outcome TryExn V
  | .success v => .value v
  | .early e | .late e => .exception e

def isEarly : TryOutcome V → Bool
  | .early _ => true
  | _ => false

end TryOutcome

/-- Where and how a request is resolved. -/
inductive TryMode (K : Type*)
  /-- Locally, without caching. -/
  | direct
  /-- Locally, through the memory cache. -/
  | cached (key : K)
  | remote
  deriving DecidableEq

/-- Whether a try registers a record with the lock. -/
def TryMode.locking {K : Type*} : TryMode K → Bool
  | .direct => false
  | _ => true

/-- A `locked_cache_record`. -/
inductive LockedRecord (K : Type*)
  | localRecord (key : K)
  | remote
  deriving DecidableEq

/-- The memory cache, the record of the `cache_record_lock`, and the tries that have taken
place. -/
structure TryWorld (K D V : Type*) where
  cache : ImmutableCache K D V
  lockRecord : Option (LockedRecord K) := none
  tries : List (TryOutcome V) := []

section
variable {K D V : Type} [DecidableEq K] [DecidableEq D] (digestOf : V → D) (deepSizeof : V → ℕ)

abbrev Try (K D V α : Type) := Coro (TryWorld K D V) TryExn α

namespace Try

/-- The try takes place. -/
def finish (o : TryOutcome V) : Try K D V V := fun w =>
  (o.result, { w with tries := w.tries ++ [o] })

/-- Construct a cache pointer. -/
def acquirePtr (key : K) (w : TryWorld K D V) : TryWorld K D V :=
  { w with cache := w.cache.acquireCacheRecord key }

def releasePtr (key : K) (w : TryWorld K D V) : TryWorld K D V :=
  { w with cache := w.cache.delRefFromCacheRecord key }

/-- Construct a `locked_cache_record`. -/
def makeRecord : LockedRecord K → TryWorld K D V → TryWorld K D V
  | .localRecord key, w =>
      { w with cache := (w.cache.addRefToCacheRecord key).addLockToCacheRecord key }
  | .remote, w => w

/-- Destroy it. -/
def destroyRecord : LockedRecord K → TryWorld K D V → TryWorld K D V
  | .localRecord key, w =>
      { w with cache := (w.cache.delLockFromCacheRecord key).delRefFromCacheRecord key }
  | .remote, w => w

/-- `cache_record_lock::set_record`. -/
def setRecord (record : LockedRecord K) : Try K D V Unit := fun w =>
  match w.lockRecord with
  | some _ => (.exception (.logicError "cache_record_lock already has a lock"),
      destroyRecord record w)
  | none => (.value (), { w with lockRecord := some record })

/-- Register a record with the lock, if one is requested. -/
def registerLock (lock : Bool) (record : LockedRecord K) : Try K D V Unit := fun w =>
  if lock then setRecord record (makeRecord record w) else (.value (), w)

/-- Await the task of the record.  If this try has created it, its outcome is recorded
here, and else where it was created. -/
def ensureValueTask (createsTask : Bool) (key : K) (o : TryOutcome V) : Try K D V V := fun w =>
  let cache := if createsTask then
      match o with
      | .success v => w.cache.recordValueUntyped key (digestOf v) v (deepSizeof v)
      | .early _ | .late _ => w.cache.recordFailure key
    else w.cache
  finish o { w with cache }

/-- `resolve_request_cached`. -/
def resolveRequestCached (lock : Bool) (key : K) (o : TryOutcome V) : Try K D V V := fun w =>
  Coro.ensuring
    (do
      registerLock lock (.localRecord key)
      ensureValueTask digestOf deepSizeof (w.cache.createsTask key) key o)
    (releasePtr key) (acquirePtr key w)

/-- `resolve_remote_to_value`, from `set_lock_ptr_record` on. -/
def resolveRemoteToValue (lock : Bool) (o : TryOutcome V) : Try K D V V := do
  registerLock lock .remote
  finish o

end Try

open Try

/-- `resolve_request_one_try`. -/
def resolveRequestOneTry (mode : TryMode K) (lock : Bool) (o : TryOutcome V) : Try K D V V :=
  match o with
  | .early _ => finish o
  | _ =>
      match mode with
      | .direct => finish o
      | .cached key => Try.resolveRequestCached digestOf deepSizeof lock key o
      | .remote => resolveRemoteToValue lock o

/-- The loop of `resolve_request_with_retry`, from the given attempt on.  `outcomes` are
the outcomes of the tries. -/
def retryLoop (r : Retrier) (mode : TryMode K) (lock : Bool) (outcomes : ℕ → TryOutcome V) :
    ℕ → ℕ → Try K D V V
  | 0, _ => fun w => (.stuck, w)
  | fuel + 1, attempt => fun w =>
      match resolveRequestOneTry digestOf deepSizeof mode lock (outcomes attempt) w with
      | (.exception e, w) =>
          match r.handleException attempt e with
          | .error e => (.exception e, w)
          | .ok none => (.stuck, w)
          | .ok (some _) => retryLoop r mode lock outcomes fuel (attempt + 1) w
      | res => res

/-- `resolve_request_with_retry`; there are no more tries than `max_attempts`, and at least
one. -/
def resolveRequestWithRetry (r : Retrier) (mode : TryMode K) (lock : Bool)
    (outcomes : ℕ → TryOutcome V) : Try K D V V :=
  retryLoop digestOf deepSizeof r mode lock outcomes (r.maxAttempts.toNat + 1) 0

end

/-! ## What the loop is for -/

section
variable {V : Type*} (r : Retrier) (outcomes : ℕ → TryOutcome V)

/-- There is no try after this one: it succeeds, fails with an error that is not accepted,
or is the last one that is allowed. -/
def Retrier.Stops (n : ℕ) : Prop :=
  match outcomes n with
  | .success _ => True
  | .early e | .late e => r.type.accepts e = false ∨ r.maxAttempts ≤ n + 1

instance (n : ℕ) : Decidable (r.Stops outcomes n) :=
  match h : outcomes n with
  | .success _ => .isTrue (by simp [Retrier.Stops, h])
  | .early e | .late e => decidable_of_iff (r.type.accepts e = false ∨ r.maxAttempts ≤ n + 1)
      (by simp [Retrier.Stops, h])

/-- No try before this one was the last one. -/
def Retrier.Reaches (n : ℕ) : Prop := ∀ i < n, ¬ r.Stops outcomes i

/-- The tries are made up to the first one that stops, whose outcome is that of the loop. -/
def Retrier.Transparent (result : Outcome TryExn V) (tries : List (TryOutcome V)) : Prop :=
  ∃ n, r.Reaches outcomes n ∧ r.Stops outcomes n ∧ result = (outcomes n).result
    ∧ tries = (List.range (n + 1)).map outcomes

/-- If a lock is requested and an earlier try has failed late, this one fails early. -/
def LockFree {K : Type*} (mode : TryMode K) (lock : Bool) (n : ℕ) : Prop :=
  mode.locking = true → lock = true → (∃ i < n, (outcomes i).isEarly = false) →
    (outcomes n).isEarly = true

/-- Nothing gets in the way of the tries: none of them finds the lock in use, and the
delays after those that are not the last one are defined. -/
def Retrier.Unobstructed {K : Type*} (mode : TryMode K) (lock : Bool) : Prop :=
  ∀ n, r.Reaches outcomes n → LockFree outcomes mode lock n
    ∧ (¬ r.Stops outcomes n → r.delay n ≠ none)

end

/-! ## One try -/

section
variable {K D V : Type} [DecidableEq K] [DecidableEq D] {mode : TryMode K}
  {lock : Bool} {o : TryOutcome V} {w : TryWorld K D V}

namespace Try

omit [DecidableEq D] in
@[simp] theorem acquirePtr_tries (key : K) : (acquirePtr key w).tries = w.tries := rfl

omit [DecidableEq D] in
@[simp] theorem acquirePtr_lockRecord (key : K) :
    (acquirePtr key w).lockRecord = w.lockRecord := rfl

@[simp] theorem releasePtr_tries (key : K) : (releasePtr key w).tries = w.tries := rfl
@[simp] theorem releasePtr_lockRecord (key : K) :
    (releasePtr key w).lockRecord = w.lockRecord := rfl

@[simp] theorem makeRecord_tries (record : LockedRecord K) :
    (makeRecord record w).tries = w.tries := by
  cases record <;> rfl

@[simp] theorem makeRecord_lockRecord (record : LockedRecord K) :
    (makeRecord record w).lockRecord = w.lockRecord := by
  cases record <;> rfl

@[simp] theorem destroyRecord_tries (record : LockedRecord K) :
    (destroyRecord record w).tries = w.tries := by
  cases record <;> rfl

/-- A lock in use takes no other record. -/
theorem registerLock_blocked (hlock : lock = true) (hw : w.lockRecord.isSome = true)
    (record : LockedRecord K) : registerLock lock record w
      = (.exception (.logicError "cache_record_lock already has a lock"),
          destroyRecord record (makeRecord record w)) := by
  obtain ⟨other, hother⟩ := Option.isSome_iff_exists.mp hw
  rw [← makeRecord_lockRecord record] at hother
  simp only [registerLock, hlock, if_true, setRecord, hother]

theorem registerLock_free (hfree : lock = true → w.lockRecord.isSome = false)
    (record : LockedRecord K) : ∃ w', registerLock lock record w = (.value (), w')
      ∧ w'.tries = w.tries ∧ w'.lockRecord.isSome = (w.lockRecord.isSome || lock) := by
  by_cases hlock : lock = true
  · have hnone : (makeRecord record w).lockRecord = none := by
      rw [makeRecord_lockRecord]
      simpa using hfree hlock
    refine ⟨{ makeRecord record w with lockRecord := some record }, ?_, ?_, ?_⟩
    · simp only [registerLock, hlock, if_true, setRecord, hnone]
    · exact makeRecord_tries record
    · simp [hlock]
  · exact ⟨w, by simp [registerLock, hlock], rfl, by simp [hlock]⟩

/-- A cached try ends like the awaited task. -/
theorem ensureValueTask_spec (digestOf : V → D) (deepSizeof : V → ℕ) (createsTask : Bool)
    (key : K) :
    ∃ w', ensureValueTask digestOf deepSizeof createsTask key o w = (o.result, w')
      ∧ w'.tries = w.tries ++ [o] ∧ w'.lockRecord = w.lockRecord :=
  ⟨_, rfl, rfl, rfl⟩

omit [DecidableEq K] [DecidableEq D] in
theorem ensuring_result {w' : TryWorld K D V} {t : Try K D V V}
    {cleanup : TryWorld K D V → TryWorld K D V} (h : t w = (o.result, w')) :
    t.ensuring cleanup w = (o.result, cleanup w') := by
  cases o with
  | success v => exact Coro.ensuring_of_value h
  | early e => exact Coro.ensuring_of_exception h
  | late e => exact Coro.ensuring_of_exception h

end Try

open Try

/-- A try that registers a record with a lock in use throws an exception of its own. -/
theorem oneTry_blocked (digestOf : V → D) (deepSizeof : V → ℕ) (hmode : mode.locking = true)
    (hlock : lock = true) (hearly : o.isEarly = false) (hw : w.lockRecord.isSome = true) :
    ∃ w', resolveRequestOneTry digestOf deepSizeof mode lock o w
        = (.exception (.logicError "cache_record_lock already has a lock"), w')
      ∧ w'.tries = w.tries := by
  cases o with
  | early e => simp [TryOutcome.isEarly] at hearly
  | _ =>
      cases mode with
      | direct => simp [TryMode.locking] at hmode
      | cached key =>
          have hregister := registerLock_blocked (w := Try.acquirePtr key w) hlock
            (by rw [acquirePtr_lockRecord]; exact hw) (.localRecord key)
          exact ⟨_, Coro.ensuring_of_exception (Coro.bind_of_exception hregister _), by simp⟩
      | remote =>
          have hregister := registerLock_blocked hlock hw .remote
          exact ⟨_, Coro.bind_of_exception hregister _, by simp⟩

/-- Any other try takes place, and may leave its record in the lock. -/
theorem oneTry_free (digestOf : V → D) (deepSizeof : V → ℕ)
    (hfree : mode.locking = true → lock = true → w.lockRecord.isSome = true → o.isEarly = true) :
    ∃ w', resolveRequestOneTry digestOf deepSizeof mode lock o w = (o.result, w')
      ∧ w'.tries = w.tries ++ [o]
      ∧ w'.lockRecord.isSome
        = (w.lockRecord.isSome || (mode.locking && lock && !o.isEarly)) := by
  have hunused : o.isEarly = false → mode.locking = true → lock = true →
      w.lockRecord.isSome = false := by
    intro hearly hmode hlock
    by_contra hused
    have := hfree hmode hlock (Bool.eq_true_of_not_eq_false hused)
    simp [hearly] at this
  cases o with
  | early e => exact ⟨_, rfl, rfl, by simp [TryOutcome.isEarly]⟩
  | _ =>
      cases mode with
      | direct => exact ⟨_, rfl, rfl, by simp [TryMode.locking]⟩
      | cached key =>
          obtain ⟨w₁, hw₁, htries₁, hrecord₁⟩ := registerLock_free (w := Try.acquirePtr key w)
            (by rw [acquirePtr_lockRecord]; exact hunused rfl rfl) (.localRecord key)
          obtain ⟨w₂, hw₂, htries₂, hrecord₂⟩ := ensureValueTask_spec (w := w₁)
            digestOf deepSizeof (w.cache.createsTask key) key
          refine ⟨_, ensuring_result ((Coro.bind_of_value hw₁ _).trans hw₂), ?_, ?_⟩
          · rw [releasePtr_tries, htries₂, htries₁, acquirePtr_tries]
          · rw [releasePtr_lockRecord, hrecord₂, hrecord₁, acquirePtr_lockRecord]
            simp [TryMode.locking, TryOutcome.isEarly]
      | remote =>
          obtain ⟨w₁, hw₁, htries₁, hrecord₁⟩ := registerLock_free (hunused rfl rfl) .remote
          refine ⟨_, Coro.bind_of_value hw₁ _, ?_, ?_⟩
          · exact congrArg (· ++ _) htries₁
          · simpa [TryMode.locking, TryOutcome.isEarly] using hrecord₁

end

/-! ## The loop -/

section
variable {V : Type*} {r : Retrier} {outcomes : ℕ → TryOutcome V} {n : ℕ}

/-- What stops the tries. -/
theorem Retrier.stops_of_result {e : TryExn} (h : (outcomes n).result = .exception e) :
    r.Stops outcomes n ↔ r.type.accepts e = false ∨ r.maxAttempts ≤ n + 1 := by
  rw [Retrier.Stops]
  cases ho : outcomes n with
  | success v => simp [ho, TryOutcome.result] at h
  | early e' =>
      obtain rfl : e' = e := by simpa [ho, TryOutcome.result] using h
      rfl
  | late e' =>
      obtain rfl : e' = e := by simpa [ho, TryOutcome.result] using h
      rfl

/-- The tries go on after an exception only. -/
theorem Retrier.exists_exception (h : ¬ r.Stops outcomes n) :
    ∃ e, (outcomes n).result = .exception e := by
  cases ho : outcomes n with
  | success v => simp [Retrier.Stops, ho] at h
  | early e => exact ⟨e, rfl⟩
  | late e => exact ⟨e, rfl⟩

theorem TryOutcome.result_ne_stuck (o : TryOutcome V) : o.result ≠ .stuck := by
  cases o <;> simp [TryOutcome.result]

theorem Retrier.handleException_of_stops {e : TryExn}
    (h : r.type.accepts e = false ∨ r.maxAttempts ≤ n + 1) : r.handleException n e = .error e := by
  rw [Retrier.handleException]
  rcases h with h | h
  · simp [h]
  · by_cases ha : r.type.accepts e = true
    · rw [if_neg (by simp [ha]), if_pos h]
    · rw [if_pos ha]

theorem Retrier.handleException_of_not_stops {e : TryExn}
    (h : ¬ (r.type.accepts e = false ∨ r.maxAttempts ≤ n + 1)) :
    r.handleException n e = .ok (r.delay n) := by
  rw [not_or] at h
  rw [Retrier.handleException]
  rw [if_neg (by simpa using h.1), if_neg h.2]

theorem Retrier.Reaches.succ (h : r.Reaches outcomes n) (hn : ¬ r.Stops outcomes n) :
    r.Reaches outcomes (n + 1) := by
  intro i hi
  rcases Nat.lt_succ_iff_lt_or_eq.mp hi with hi | rfl
  · exact h i hi
  · exact hn

/-- A try that is reached is at most the first one that stops. -/
theorem Retrier.Reaches.le (h : r.Reaches outcomes n) {m : ℕ} (hm : r.Stops outcomes m) :
    n ≤ m := by
  by_contra hlt
  exact h m (by omega) hm

/-- The number of a try that is reached is bounded by the retrier. -/
theorem Retrier.Reaches.lt_maxAttempts (h : r.Reaches outcomes (n + 1)) :
    (n : ℤ) + 1 < r.maxAttempts := by
  have hn := h n (by omega)
  cases ho : outcomes n with
  | success v => simp [Retrier.Stops, ho] at hn
  | early e =>
      rw [Retrier.stops_of_result (e := e) (by rw [ho]; rfl), not_or] at hn
      omega
  | late e =>
      rw [Retrier.stops_of_result (e := e) (by rw [ho]; rfl), not_or] at hn
      omega

/-- Without the last try, the tries are not those of the specification. -/
theorem Retrier.not_transparent_of_short {result : Outcome TryExn V}
    {tries : List (TryOutcome V)} (h : r.Reaches outcomes n) (hlen : tries.length = n) :
    ¬ r.Transparent outcomes result tries := by
  rintro ⟨m, -, hstops, -, htries⟩
  have hle := h.le hstops
  rw [htries, List.length_map, List.length_range] at hlen
  omega

/-- The last try gives the result. -/
theorem Retrier.transparent_of_stops (h : r.Reaches outcomes n) (hn : r.Stops outcomes n) :
    r.Transparent outcomes (outcomes n).result ((List.range (n + 1)).map outcomes) :=
  ⟨n, h, hn, rfl, rfl⟩

end

section
variable {K D V : Type} [DecidableEq K] [DecidableEq D] {digestOf : V → D} {deepSizeof : V → ℕ}
  {r : Retrier} {mode : TryMode K} {lock : Bool} {outcomes : ℕ → TryOutcome V}

/-- The state before the given try: the tries before it have taken place, and the lock is
in use if one of them has registered its record. -/
structure Before (mode : TryMode K) (lock : Bool) (outcomes : ℕ → TryOutcome V) (n : ℕ)
    (w : TryWorld K D V) : Prop where
  tries : w.tries = (List.range n).map outcomes
  lockRecord : w.lockRecord.isSome = true
    ↔ mode.locking = true ∧ lock = true ∧ ∃ i < n, (outcomes i).isEarly = false

omit [DecidableEq K] [DecidableEq D] in
theorem Before.next {n : ℕ} {w w' : TryWorld K D V} (h : Before mode lock outcomes n w)
    (htries : w'.tries = w.tries ++ [outcomes n])
    (hrecord : w'.lockRecord.isSome
      = (w.lockRecord.isSome || (mode.locking && lock && !(outcomes n).isEarly))) :
    Before mode lock outcomes (n + 1) w' := by
  constructor
  · rw [htries, h.tries, List.range_succ, List.map_append]
    rfl
  · rw [hrecord, Bool.or_eq_true, h.lockRecord]
    constructor
    · rintro (⟨hmode, hlock, i, hi, hearly⟩ | hthis)
      · exact ⟨hmode, hlock, i, by omega, hearly⟩
      · simp only [Bool.and_eq_true, Bool.not_eq_true'] at hthis
        exact ⟨hthis.1.1, hthis.1.2, n, by omega, hthis.2⟩
    · rintro ⟨hmode, hlock, i, hi, hearly⟩
      rcases Nat.lt_succ_iff_lt_or_eq.mp hi with hi | rfl
      · exact .inl ⟨hmode, hlock, i, hi, hearly⟩
      · exact .inr (by simp [hmode, hlock, hearly])

section
variable {fuel n : ℕ} {w w' : TryWorld K D V} {v : V} {e : TryExn}

theorem retryLoop_of_value
    (h : resolveRequestOneTry digestOf deepSizeof mode lock (outcomes n) w = (.value v, w')) :
    retryLoop digestOf deepSizeof r mode lock outcomes (fuel + 1) n w = (.value v, w') := by
  simp only [retryLoop, h]

theorem retryLoop_of_throws
    (h : resolveRequestOneTry digestOf deepSizeof mode lock (outcomes n) w = (.exception e, w'))
    (he : r.handleException n e = .error e) :
    retryLoop digestOf deepSizeof r mode lock outcomes (fuel + 1) n w = (.exception e, w') := by
  simp only [retryLoop, h, he]

theorem retryLoop_of_undefined
    (h : resolveRequestOneTry digestOf deepSizeof mode lock (outcomes n) w = (.exception e, w'))
    (he : r.handleException n e = .ok none) :
    retryLoop digestOf deepSizeof r mode lock outcomes (fuel + 1) n w = (.stuck, w') := by
  simp only [retryLoop, h, he]

theorem retryLoop_of_delay {millis : ℤ}
    (h : resolveRequestOneTry digestOf deepSizeof mode lock (outcomes n) w = (.exception e, w'))
    (he : r.handleException n e = .ok (some millis)) :
    retryLoop digestOf deepSizeof r mode lock outcomes (fuel + 1) n w
      = retryLoop digestOf deepSizeof r mode lock outcomes fuel (n + 1) w' := by
  simp only [retryLoop, h, he]

end

omit [DecidableEq K] in
/-- Nothing can get in the way after the last try. -/
theorem unobstructed_of_stops {n : ℕ} (hn : r.Stops outcomes n)
    (hfree : LockFree outcomes mode lock n) : ∀ m ≥ n, r.Reaches outcomes m →
      LockFree outcomes mode lock m ∧ (¬ r.Stops outcomes m → r.delay m ≠ none) := by
  intro m hm hreach
  obtain rfl : m = n := by
    have := hreach.le hn
    omega
  exact ⟨hfree, fun hnot => absurd hn hnot⟩

/-- The loop ends with a try that stops. -/
theorem retryLoop_of_stops {fuel n : ℕ} {w w' : TryWorld K D V} (hstops : r.Stops outcomes n)
    (htry : resolveRequestOneTry digestOf deepSizeof mode lock (outcomes n) w
      = ((outcomes n).result, w')) :
    retryLoop digestOf deepSizeof r mode lock outcomes (fuel + 1) n w
      = ((outcomes n).result, w') := by
  cases hresult : (outcomes n).result with
  | value v => exact retryLoop_of_value (htry.trans (by rw [hresult]))
  | exception e =>
      exact retryLoop_of_throws (htry.trans (by rw [hresult]))
        (Retrier.handleException_of_stops ((Retrier.stops_of_result hresult).mp hstops))
  | stuck => exact absurd hresult (outcomes n).result_ne_stuck

/-- The loop from one of its tries on. -/
theorem retryLoop_transparent_iff {fuel n : ℕ} {w : TryWorld K D V}
    (hfuel : r.maxAttempts.toNat < n + fuel) (hreach : r.Reaches outcomes n)
    (hbefore : Before mode lock outcomes n w) :
    r.Transparent outcomes (retryLoop digestOf deepSizeof r mode lock outcomes fuel n w).1
        (retryLoop digestOf deepSizeof r mode lock outcomes fuel n w).2.tries
      ↔ ∀ m ≥ n, r.Reaches outcomes m → LockFree outcomes mode lock m
        ∧ (¬ r.Stops outcomes m → r.delay m ≠ none) := by
  induction fuel generalizing n w with
  | zero =>
      -- a try is only reached with fuel left
      cases n with
      | zero => simp at hfuel
      | succ n =>
          have := hreach.lt_maxAttempts
          omega
  | succ fuel ih =>
      by_cases hfree : LockFree outcomes mode lock n
      · have hunused : mode.locking = true → lock = true → w.lockRecord.isSome = true →
            (outcomes n).isEarly = true := fun hmode hlock hused =>
          hfree hmode hlock (hbefore.lockRecord.mp hused).2.2
        obtain ⟨w', htry, htries, hrecord⟩ := oneTry_free digestOf deepSizeof hunused
        have hnext := hbefore.next htries hrecord
        by_cases hstops : r.Stops outcomes n
        · rw [retryLoop_of_stops hstops htry, hnext.tries]
          exact iff_of_true (Retrier.transparent_of_stops hreach hstops)
            (unobstructed_of_stops hstops hfree)
        · obtain ⟨e, hresult⟩ := Retrier.exists_exception hstops
          rw [hresult] at htry
          have hhandle := Retrier.handleException_of_not_stops
            (fun h => hstops ((Retrier.stops_of_result hresult).mpr h))
          have hreach' := hreach.succ hstops
          cases hdelay : r.delay n with
          | none =>
              rw [hdelay] at hhandle
              rw [retryLoop_of_undefined htry hhandle]
              refine iff_of_false ?_ fun h => (h n le_rfl hreach).2 hstops hdelay
              rintro ⟨m, -, -, hstuck, -⟩
              exact (outcomes m).result_ne_stuck hstuck.symm
          | some millis =>
              rw [hdelay] at hhandle
              rw [retryLoop_of_delay htry hhandle, ih (by omega) hreach' hnext]
              constructor
              · intro h m hm hm'
                rcases Nat.eq_or_lt_of_le hm with rfl | hlt
                · exact ⟨hfree, fun _ => by simp [hdelay]⟩
                · exact h m hlt hm'
              · exact fun h m hm => h m (by omega)
      · -- the lock has a record already
        have hblocked := hfree
        simp only [LockFree, not_forall] at hblocked
        obtain ⟨hmode, hlock, hlate, hearly⟩ := hblocked
        obtain ⟨w', htry, htries⟩ := oneTry_blocked digestOf deepSizeof hmode hlock
          (Bool.eq_false_of_not_eq_true hearly) (hbefore.lockRecord.mpr ⟨hmode, hlock, hlate⟩)
        have hown : r.handleException n (.logicError "cache_record_lock already has a lock")
            = .error (.logicError "cache_record_lock already has a lock") :=
          Retrier.handleException_of_stops (.inl (by cases r.type <;> rfl))
        rw [retryLoop_of_throws htry hown, htries, hbefore.tries]
        refine iff_of_false (Retrier.not_transparent_of_short hreach (by simp)) fun h => ?_
        exact hfree (h n le_rfl hreach).1

/-- The defaults of `default_retrier`. -/
def defaultRetrier : Retrier := ⟨.default, 100, 9, by omega, by omega⟩

/-- The server is not available at first. -/
def failsOnce : ℕ → TryOutcome ℕ
  | 0 => .late (.httpRequestFailure "status_code 500")
  | _ => .success 42

end
end Cradle.Resolve
