import Cradle.Caching.Memo
import Cradle.Lib.Transition

/-!
# The lifetime of computation tasks

A cached resolution constructs a cache pointer, which gives a new or failed record a task
that computes the value.  The task has captured the pointer, which is a local variable of
the resolution's coroutine, and is started when a resolution first awaits it.  So the
coroutine must not be left before the task has run.  This holds once it awaits the task,
but between the construction of the pointer and the `co_await` it may throw: when the lock
that the caller has passed already has a record, or when an introspective request meets a
context that is not introspective.

Resolutions are numbered; a cache pointer, and the task that captured it, go by the number
of the resolution that they belong to.
-/

namespace Cradle.Resolve

open Caching

variable {K D V : Type} [DecidableEq K] [DecidableEq D]

/-- How far a call of `resolve_request_cached` is. -/
inductive CachedPhase
  /-- The pointer is constructed. -/
  | acquired
  /-- The record is registered with the lock, if there is one. -/
  | registered
  | awaiting (task : ℕ)
  /-- The pointer is destroyed. -/
  | left
  deriving DecidableEq

/-- A call of `resolve_request_cached`.  The cast to an introspective context is made for
introspective requests only. -/
structure CachedCall (K : Type) where
  key : K
  lock : Option ℕ
  castFails : Bool := false
  phase : CachedPhase := .acquired

/-- The memory cache with the calls on it.  `tasks` are the tasks of its records, and
`lockRecords` the keys of the records that the locks hold. -/
structure TaskSystem (K D V : Type) where
  cache : ImmutableCache K D V
  calls : List (CachedCall K) := []
  tasks : K → Option ℕ := fun _ => none
  started : ℕ → Bool := fun _ => false
  ended : ℕ → Bool := fun _ => false
  lockRecords : ℕ → Option K := fun _ => none

inductive TaskAction (K V : Type)
  /-- Start a resolution: construct its cache pointer. -/
  | acquire (key : K) (lock : Option ℕ) (castFails : Bool)
  | setRecord (n : ℕ)
  /-- Any other exception before the task is awaited. -/
  | throws (n : ℕ)
  | await (n : ℕ)
  /-- The task of the record ends with a value, or throws. -/
  | recordValue (key : K) (v : V)
  | recordFailure (key : K)
  /-- The awaited task has ended, and so does the resolution. -/
  | leave (n : ℕ)
  /-- A lock is destroyed. -/
  | releaseLock (lock : ℕ)
  | reduce (desiredSize : ℕ)

namespace TaskSystem

variable (digestOf : V → D) (deepSizeof : V → ℕ)

/-- The call goes on to another phase. -/
def setPhase (s : TaskSystem K D V) (n : ℕ) (c : CachedCall K) (phase : CachedPhase) :
    TaskSystem K D V :=
  { s with calls := s.calls.set n { c with phase } }

/-- The coroutine is left, which destroys the pointer. -/
def leave (s : TaskSystem K D V) (n : ℕ) (c : CachedCall K) : TaskSystem K D V :=
  { s.setPhase n c .left with cache := s.cache.delRefFromCacheRecord c.key }

/-- Construct a `local_locked_cache_record`. -/
def lockRecord (s : TaskSystem K D V) (key : K) : TaskSystem K D V :=
  { s with cache := (s.cache.addRefToCacheRecord key).addLockToCacheRecord key }

/-- Destroy it. -/
def unlockRecord (s : TaskSystem K D V) (key : K) : TaskSystem K D V :=
  { s with cache := (s.cache.delLockFromCacheRecord key).delRefFromCacheRecord key }

/-- The task of the record, if it is running. -/
def running (s : TaskSystem K D V) (key : K) : Option ℕ :=
  (s.tasks key).filter fun t => s.started t ∧ ¬ s.ended t ∧ s.cache.stateOf key = some .loading

def step (s : TaskSystem K D V) : TaskAction K V → Option (TaskSystem K D V)
  | .acquire key lock castFails => some { s with
      cache := s.cache.acquireCacheRecord key
      calls := s.calls ++ [{ key, lock, castFails }]
      tasks := if s.cache.createsTask key
        then Function.update s.tasks key (some s.calls.length) else s.tasks }
  | .setRecord n => s.calls[n]?.bind fun c =>
      if c.phase = .acquired then
        match c.lock with
        | none => some (s.setPhase n c .registered)
        | some lock =>
            match s.lockRecords lock with
            | some _ => some (((s.lockRecord c.key).unlockRecord c.key).leave n c)
            | none => some { (s.lockRecord c.key).setPhase n c .registered with
                lockRecords := Function.update s.lockRecords lock (some c.key) }
      else none
  | .throws n => s.calls[n]?.bind fun c =>
      if c.phase = .acquired ∨ c.phase = .registered then some (s.leave n c) else none
  | .await n => s.calls[n]?.bind fun c =>
      if c.phase = .registered then
        if c.castFails then some (s.leave n c)
        else (s.tasks c.key).map fun t =>
          { s.setPhase n c (.awaiting t) with started := Function.update s.started t true }
      else none
  | .recordValue key v => (s.running key).map fun t => { s with
      cache := s.cache.recordValueUntyped key (digestOf v) v (deepSizeof v)
      ended := Function.update s.ended t true }
  | .recordFailure key => (s.running key).map fun t => { s with
      cache := s.cache.recordFailure key
      ended := Function.update s.ended t true }
  | .leave n => s.calls[n]?.bind fun c =>
      match c.phase with
      | .awaiting t => if s.ended t then some (s.leave n c) else none
      | _ => none
  | .releaseLock lock => (s.lockRecords lock).map fun key =>
      { s.unlockRecord key with lockRecords := Function.update s.lockRecords lock none }
  | .reduce desiredSize => some { s with cache := s.cache.reduceMemoryCacheSize desiredSize }

/-- A cache that nobody uses yet. -/
def start : Set (TaskSystem K D V) :=
  { s | ∃ unusedSizeLimit, s = { cache := { unusedSizeLimit } } }

/-- The pointer of the given call is not destroyed. -/
def Live (s : TaskSystem K D V) (n : ℕ) : Prop := ∃ c ∈ s.calls[n]?, c.phase ≠ .left

/-- The record is loading, and its task belongs to the given call. -/
def LoadsFor (s : TaskSystem K D V) (key : K) (n : ℕ) : Prop :=
  s.cache.stateOf key = some .loading ∧ s.tasks key = some n

instance (s : TaskSystem K D V) (n : ℕ) : Decidable (s.Live n) :=
  inferInstanceAs (Decidable (∃ c ∈ s.calls[n]?, c.phase ≠ .left))

instance (s : TaskSystem K D V) (key : K) (n : ℕ) : Decidable (s.LoadsFor key n) :=
  inferInstanceAs (Decidable (_ ∧ _))

/-- A call whose pointer was captured by the task of a loading record does not throw before
it awaits the task: the lock that it was given has no record, the cast succeeds, and
there is no other exception. -/
def Stays (s : TaskSystem K D V) : TaskAction K V → Prop
  | .setRecord n => ∀ c ∈ s.calls[n]?, s.LoadsFor c.key n →
      ∀ lock ∈ c.lock, s.lockRecords lock = none
  | .throws n => ∀ c ∈ s.calls[n]?, ¬ s.LoadsFor c.key n
  | .await n => ∀ c ∈ s.calls[n]?, s.LoadsFor c.key n → c.castFails = false
  | _ => True

instance (s : TaskSystem K D V) (a : TaskAction K V) : Decidable (s.Stays a) :=
  match a with
  | .setRecord n => inferInstanceAs (Decidable (∀ c ∈ s.calls[n]?, s.LoadsFor c.key n →
      ∀ lock ∈ c.lock, s.lockRecords lock = none))
  | .throws n => inferInstanceAs (Decidable (∀ c ∈ s.calls[n]?, ¬ s.LoadsFor c.key n))
  | .await n => inferInstanceAs (Decidable (∀ c ∈ s.calls[n]?, s.LoadsFor c.key n →
      c.castFails = false))
  | .acquire .. | .recordValue .. | .recordFailure _ | .leave _ | .releaseLock _ | .reduce _ =>
      .isTrue trivial

/-! ## The invariant -/

/-- The call whose pointer was captured by the task of a loading record: it is not left,
and can only wait for that task, which has not ended. -/
structure Owner (s : TaskSystem K D V) (key : K) (n : ℕ) (c : CachedCall K) : Prop where
  call : s.calls[n]? = some c
  key_eq : c.key = key
  stays : c.phase ≠ .left
  awaits : ∀ t, c.phase = .awaiting t → t = n
  running : s.ended n = false

structure Inv (s : TaskSystem K D V) : Prop where
  owned : ∀ key, s.cache.stateOf key = some .loading →
    ∃ n c, s.tasks key = some n ∧ s.Owner key n c
  ended_lt : ∀ n, s.ended n = true → n < s.calls.length

section
variable {s : TaskSystem K D V} {n : ℕ} {c : CachedCall K}

omit [DecidableEq D] in
/-- A change of the cache in which no record starts to load. -/
theorem Inv.setCache (h : s.Inv) {cache : ImmutableCache K D V}
    (hcache : ∀ key, cache.stateOf key = some .loading → s.cache.stateOf key = some .loading)
    (lockRecords : ℕ → Option K) (started : ℕ → Bool) :
    Inv { s with cache, lockRecords, started } := by
  refine ⟨fun key hkey => ?_, h.ended_lt⟩
  obtain ⟨m, c, htask, ho⟩ := h.owned key (hcache key hkey)
  exact ⟨m, c, htask, ho.call, ho.key_eq, ho.stays, ho.awaits, ho.running⟩

omit [DecidableEq D] in
/-- A call goes on; if it owns a task of a loading record, it stays and awaits no other
one. -/
theorem Inv.setPhase (h : s.Inv) (hn : s.calls[n]? = some c) {phase : CachedPhase}
    (hphase : s.LoadsFor c.key n → phase ≠ .left ∧ ∀ t, phase = .awaiting t → t = n) :
    Inv (s.setPhase n c phase) := by
  have hlt : n < s.calls.length := (List.getElem?_eq_some_iff.mp hn).1
  refine ⟨fun key hkey => ?_, fun m hm => ?_⟩
  · obtain ⟨m, c', htask, ho⟩ := h.owned key hkey
    by_cases hmn : m = n
    · subst hmn
      obtain rfl : c = c' := Option.some.inj (hn.symm.trans ho.call)
      obtain ⟨hstays, hawaits⟩ := hphase ⟨by rw [ho.key_eq]; exact hkey,
        by rw [ho.key_eq]; exact htask⟩
      refine ⟨m, { c with phase }, htask, ?_, ho.key_eq, hstays, hawaits, ho.running⟩
      simp [TaskSystem.setPhase, hlt]
    · refine ⟨m, c', htask, ?_, ho.key_eq, ho.stays, ho.awaits, ho.running⟩
      simp only [TaskSystem.setPhase]
      rw [List.getElem?_set_ne (Ne.symm hmn)]
      exact ho.call
  · simp only [TaskSystem.setPhase, List.length_set]
    exact h.ended_lt m hm

/-- A call is left that owns no task of a loading record. -/
theorem Inv.leave (h : s.Inv) (hn : s.calls[n]? = some c) (hnot : ¬ s.LoadsFor c.key n) :
    Inv (s.leave n c) :=
  (h.setPhase hn fun howns => absurd howns hnot).setCache
    (fun _ => ImmutableCache.stateOf_of_delRef) s.lockRecords s.started

omit [DecidableEq D] in
/-- A new call: its pointer is captured if the record is given a task. -/
theorem Inv.acquire (h : s.Inv) (key : K) (lock : Option ℕ) (castFails : Bool) :
    Inv { s with
      cache := s.cache.acquireCacheRecord key
      calls := s.calls ++ [{ key, lock, castFails }]
      tasks := if s.cache.createsTask key
        then Function.update s.tasks key (some s.calls.length) else s.tasks } := by
  have hold : ∀ key', s.cache.stateOf key' = some .loading →
      (s.cache.createsTask key = true → key' ≠ key) →
      ∃ n c, (if s.cache.createsTask key then Function.update s.tasks key (some s.calls.length)
          else s.tasks) key' = some n ∧ s.Owner key' n c := by
    intro key' hload hne
    obtain ⟨n, c, htask, ho⟩ := h.owned key' hload
    refine ⟨n, c, ?_, ho⟩
    by_cases hcreates : s.cache.createsTask key = true
    · rw [if_pos hcreates, Function.update_of_ne (hne hcreates)]
      exact htask
    · rw [if_neg hcreates]
      exact htask
  refine ⟨fun key' hkey' => ?_, fun n hn => ?_⟩
  · rw [ImmutableCache.stateOf_acquire] at hkey'
    by_cases hnew : key' = key ∧ s.cache.createsTask key = true
    · obtain ⟨rfl, hcreates⟩ := hnew
      refine ⟨s.calls.length, { key := key', lock, castFails }, ?_, ?_, rfl, ?_, ?_, ?_⟩
      · simp only [hcreates, if_true, Function.update_self]
      · simp
      · simp
      · simp
      · by_contra hended
        have := h.ended_lt _ (Bool.eq_true_of_not_eq_false hended)
        omega
    · have hload : s.cache.stateOf key' = some .loading := by
        by_cases hk : key' = key
        · subst hk
          have hnot : s.cache.createsTask key' ≠ true := fun hc => hnew ⟨rfl, hc⟩
          rw [Ne, ImmutableCache.createsTask_iff, not_and_or, not_not, not_not] at hnot
          rw [if_pos rfl] at hkey'
          rcases hnot with hready | hload
          · simp [hready] at hkey'
          · exact hload
        · rwa [if_neg hk] at hkey'
      obtain ⟨n, c, htask, ho⟩ := hold key' hload fun hc hk => hnew ⟨hk, hc⟩
      have hlt : n < s.calls.length := (List.getElem?_eq_some_iff.mp ho.call).1
      refine ⟨n, c, htask, ?_, ho.key_eq, ho.stays, ho.awaits, ho.running⟩
      simp only
      rw [List.getElem?_append_left hlt]
      exact ho.call
  · have := h.ended_lt n hn
    simp only [List.length_append, List.length_singleton]
    omega

omit [DecidableEq D] in
/-- The task of a record ends, and the record is not loading any more. -/
theorem Inv.ended (h : s.Inv) {key : K} {t : ℕ} (hrunning : s.running key = some t)
    {cache : ImmutableCache K D V} (hdone : cache.stateOf key ≠ some .loading)
    (hother : ∀ key' ≠ key, cache.stateOf key' = s.cache.stateOf key') :
    Inv { s with cache, ended := Function.update s.ended t true } := by
  obtain ⟨htask, hrun⟩ := Option.filter_eq_some_iff.mp hrunning
  simp only [Bool.decide_and, Bool.and_eq_true, decide_eq_true_eq] at hrun
  obtain ⟨n, c, htask', howner⟩ := h.owned key hrun.2.2
  obtain rfl : t = n := Option.some.inj (htask.symm.trans htask')
  refine ⟨fun key' hkey' => ?_, fun m hm => ?_⟩
  · have hne : key' ≠ key := fun heq => hdone (heq ▸ hkey')
    rw [hother key' hne] at hkey'
    obtain ⟨m, c', hm, ho⟩ := h.owned key' hkey'
    -- a task belongs to one record
    have hmt : m ≠ t := by
      rintro rfl
      obtain rfl : c = c' := Option.some.inj (howner.call.symm.trans ho.call)
      exact hne (ho.key_eq.symm.trans howner.key_eq)
    refine ⟨m, c', hm, ho.call, ho.key_eq, ho.stays, ho.awaits, ?_⟩
    simp only
    rw [Function.update_of_ne hmt]
    exact ho.running
  · by_cases hmt : m = t
    · rw [hmt]
      exact (List.getElem?_eq_some_iff.mp howner.call).1
    · simp only at hm
      rw [Function.update_of_ne hmt] at hm
      exact h.ended_lt m hm

variable {digestOf : V → D} {deepSizeof : V → ℕ}

/-- A call registers its record with the lock, or leaves because the lock has one. -/
theorem Inv.step_setRecord {s' : TaskSystem K D V} (h : s.Inv) (hok : s.Stays (.setRecord n))
    (hstep : s.step digestOf deepSizeof (.setRecord n) = some s') : s'.Inv := by
  obtain ⟨c, hc, hrest⟩ := Option.bind_eq_some_iff.mp hstep
  split at hrest
  · cases hlock : c.lock with
    | none =>
        simp only [hlock, Option.some.injEq] at hrest
        subst hrest
        exact h.setPhase hc fun _ => ⟨by simp, by simp⟩
    | some lock =>
        cases hrecord : s.lockRecords lock with
        | none =>
            simp only [hlock, hrecord, Option.some.injEq] at hrest
            subst hrest
            have hphase : Inv (s.setPhase n c .registered) :=
              h.setPhase hc fun _ => ⟨by simp, by simp⟩
            refine hphase.setCache (fun key hkey => ?_) _ s.started
            simpa [TaskSystem.setPhase, lockRecord] using hkey
        | some key =>
            simp only [hlock, hrecord, Option.some.injEq] at hrest
            subst hrest
            have hcache : ∀ key, ((s.lockRecord c.key).unlockRecord c.key).cache.stateOf key
                = some .loading → s.cache.stateOf key = some .loading := by
              intro key hkey
              have := ImmutableCache.stateOf_of_delRef hkey
              simpa [lockRecord] using this
            refine (h.setCache hcache s.lockRecords s.started).leave hc fun howns => ?_
            have hnone := hok c hc ⟨hcache _ howns.1, howns.2⟩ lock hlock
            simp [hrecord] at hnone
  · cases hrest

/-- A call leaves when the task that it awaits has ended; that is not one that has captured
its pointer and runs. -/
theorem Inv.step_leave {s' : TaskSystem K D V} (h : s.Inv)
    (hstep : s.step digestOf deepSizeof (.leave n) = some s') : s'.Inv := by
  obtain ⟨c, hc, hrest⟩ := Option.bind_eq_some_iff.mp hstep
  cases hphase : c.phase with
  | awaiting t =>
      simp only [hphase] at hrest
      split at hrest
      · rename_i hended
        obtain rfl := Option.some.inj hrest
        refine h.leave hc fun howns => ?_
        -- the call would have waited for its own task, which has not ended
        obtain ⟨m, c', htask, ho⟩ := h.owned c.key howns.1
        obtain rfl : n = m := Option.some.inj (howns.2.symm.trans htask)
        obtain rfl : c = c' := Option.some.inj (hc.symm.trans ho.call)
        rw [ho.awaits t hphase, ho.running] at hended
        simp at hended
      · cases hrest
  | _ => simp [hphase] at hrest

theorem Inv.step {s' : TaskSystem K D V} {a : TaskAction K V} (h : s.Inv) (hok : s.Stays a)
    (hstep : s.step digestOf deepSizeof a = some s') : s'.Inv := by
  cases a with
  | acquire key lock castFails =>
      obtain rfl := Option.some.inj hstep
      exact h.acquire key lock castFails
  | setRecord n => exact h.step_setRecord hok hstep
  | throws n =>
      obtain ⟨c, hc, hrest⟩ := Option.bind_eq_some_iff.mp hstep
      split at hrest
      · obtain rfl := Option.some.inj hrest
        exact h.leave hc (hok c hc)
      · cases hrest
  | await n =>
      obtain ⟨c, hc, hrest⟩ := Option.bind_eq_some_iff.mp hstep
      split at hrest
      · split at hrest
        · rename_i hcast
          obtain rfl := Option.some.inj hrest
          refine h.leave hc fun howns => ?_
          have := hok c hc howns
          simp [hcast] at this
        · obtain ⟨t, ht, rfl⟩ := Option.map_eq_some_iff.mp hrest
          refine (h.setPhase hc fun howns => ⟨by simp, fun t' ht' => ?_⟩).setCache
            (fun key hkey => hkey) s.lockRecords _
          -- the call awaits the current task of its record
          obtain rfl : t = t' := by simpa using ht'
          exact Option.some.inj (ht.symm.trans howns.2)
      · cases hrest
  | recordValue key v =>
      obtain ⟨t, hrunning, rfl⟩ := Option.map_eq_some_iff.mp hstep
      refine h.ended hrunning ?_ fun key' hne =>
        ImmutableCache.stateOf_recordValue_of_ne hne _ _ _
      simp [ImmutableCache.stateOf, ImmutableCache.recordValueUntyped]
  | recordFailure key =>
      obtain ⟨t, hrunning, rfl⟩ := Option.map_eq_some_iff.mp hstep
      refine h.ended hrunning ?_ fun key' hne => ?_
      · rw [ImmutableCache.stateOf_recordFailure, if_pos rfl]
        simp
      · rw [ImmutableCache.stateOf_recordFailure, if_neg hne]
  | leave n => exact h.step_leave hstep
  | releaseLock lock =>
      obtain ⟨key, hkey, rfl⟩ := Option.map_eq_some_iff.mp hstep
      refine h.setCache (fun key' hkey' => ?_) _ s.started
      rw [← ImmutableCache.stateOf_delLock]
      exact ImmutableCache.stateOf_of_delRef hkey'
  | reduce desiredSize =>
      obtain rfl := Option.some.inj hstep
      exact h.setCache (fun _ => ImmutableCache.stateOf_of_reduceLoop) s.lockRecords s.started

/-! ## Every run -/

/-- In every run in which no call throws before it awaits the task that has captured its
pointer, the task of every loading record has captured a live pointer. -/
theorem live_of_stays (hreach : Transition.Reachable (step digestOf deepSizeof) Stays start s) :
    ∀ key, s.cache.stateOf key = some .loading → ∃ n, s.tasks key = some n ∧ s.Live n := by
  have hinv : s.Inv := by
    refine hreach.invariant (fun s hs => ?_) fun s s' a hI hok hstep => hI.step hok hstep
    obtain ⟨limit, rfl⟩ := hs
    exact ⟨fun key hkey => by simp [ImmutableCache.stateOf, Table.find?] at hkey, by simp⟩
  intro key hkey
  obtain ⟨n, c, htask, ho⟩ := hinv.owned key hkey
  exact ⟨n, htask, c, ho.call, ho.stays⟩

/-- An empty cache. -/
def empty : TaskSystem ℕ ℕ ℕ := { cache := { unusedSizeLimit := 100 } }

/-- A resolution with a lock fails. -/
def failing : List (TaskAction ℕ ℕ) :=
  [.acquire 7 (some 0) false, .setRecord 0, .await 0, .recordFailure 7, .leave 0]

/-- It is tried again with a new lock. -/
def triedAgain : List (TaskAction ℕ ℕ) := failing ++ [.acquire 7 (some 1) false, .setRecord 1]

theorem live_triedAgain : ∃ s, Transition.run (step id fun _ => 1) empty triedAgain = some s
    ∧ s.cache.stateOf 7 = some .loading ∧ ∃ n, s.tasks 7 = some n ∧ s.Live n := by
  obtain ⟨s, hrun⟩ : ∃ s, Transition.run (step id fun _ => 1) empty triedAgain = some s :=
    Option.isSome_iff_exists.mp (by decide)
  have hstate : (Transition.run (step id fun _ => 1) empty triedAgain).map (·.cache.stateOf 7)
      = some (some .loading) := by
    decide
  have hmeet : Transition.StepsMeet (step id fun _ => 1) Stays empty triedAgain := by decide
  rw [hrun] at hstate
  have hload : s.cache.stateOf 7 = some .loading := Option.some.inj hstate
  have hstart : empty ∈ start := ⟨100, rfl⟩
  exact ⟨s, hrun, hload, live_of_stays (.run_of_stepsMeet (.start hstart) hmeet hrun) 7 hload⟩

/-- It is tried again with the same lock. -/
def triedAgainLocked : List (TaskAction ℕ ℕ) :=
  failing ++ [.acquire 7 (some 0) false, .setRecord 1]

/-- The record is left loading, with a task that was not started and whose pointer is
destroyed. -/
theorem not_live_triedAgainLocked :
    ¬ ∀ s : TaskSystem ℕ ℕ ℕ,
      Transition.Reachable (step id fun _ => 1) (fun _ _ => True) start s →
      ∀ (key n : ℕ), s.cache.stateOf key = some .loading → s.tasks key = some n →
        s.started n = false → s.Live n := by
  intro h
  obtain ⟨s, hrun⟩ : ∃ s, Transition.run (step id fun _ => 1) empty triedAgainLocked = some s :=
    Option.isSome_iff_exists.mp (by decide)
  have hdangling : (Transition.run (step id fun _ => 1) empty triedAgainLocked).map (fun s =>
      decide (s.LoadsFor 7 1 ∧ s.started 1 = false ∧ ¬ s.Live 1)) = some true := by
    decide
  rw [hrun] at hdangling
  obtain ⟨hloads, hstarted, hdead⟩ := of_decide_eq_true (Option.some.inj hdangling)
  have hstart : empty ∈ start := ⟨100, rfl⟩
  exact hdead (h s (.run (.start hstart) hrun) 7 1 hloads.1 hloads.2 hstarted)

end

end TaskSystem
end Cradle.Resolve
