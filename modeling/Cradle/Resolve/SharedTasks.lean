import Cradle.Resolve.AsyncResolution

/-!
# Cancellation and shared tasks

A function learns from its context that its resolution is to be cancelled, and throws
`async_cancelled` then.  The contexts of one tree share the request to cancel, so a resolution
that throws the exception should be one that was cancelled.  But the task of a cache record runs
on the context of the request that made the record, and what it throws is thrown to every
coroutine that awaits it, also those of other resolutions.

Where nobody cancels a resolution while others depend on its tasks, and nobody gets to depend on
the tasks of a cancelled one, the exception stays in the tree that it belongs to.
-/

namespace Cradle.Async

open Resolve

variable {T F V K : Type}

/-- The resolution has thrown `async_cancelled`. -/
def Resolution.threwCancelled (x : Resolution T F V) : Bool :=
  match (x.activity []).phase with
  | .failed .asyncCancelled => true
  | _ => false

/-- A resolution is not cancelled while a coroutine of another one awaits one of its running
tasks, and no coroutine goes to await a task of another, cancelled, resolution, unless that task
has ended without `async_cancelled`. -/
def Considerate (env : Env T F V K) (s : System T F V K) : Event T F V K → Prop
  | .cancel t => ∀ t' p obj n, t' ≠ t → ((s.resolution t').activity p).phase = .awaiting obj n →
      (s.cache.tasks n).tree = t → (s.cache.tasks n).outcome ≠ none
  | .advance t p _ => ∀ obj r, ((s.resolution t).activity p).phase = .acquired obj →
      s.cache.records (env.capturedId obj) = some r → (s.cache.tasks r.task).tree ≠ t →
      (s.resolution (s.cache.tasks r.task).tree).cancelled = true →
        (s.cache.tasks r.task).outcome ≠ none
          ∧ (s.cache.tasks r.task).outcome ≠ some (.error .asyncCancelled)
  | _ => True

/-! ## The invariant -/

/-- The coroutine has `async_cancelled` to throw. -/
def Phase.cancels : Phase T F V → Bool
  | recording _ _ (.error .asyncCancelled) | threw .asyncCancelled | failed .asyncCancelled => true
  | _ => false

theorem Phase.cancels_recording {obj : FunctionRequestImpl T F V} {n : ℕ}
    {result : Except AsyncExn V} :
    (Phase.recording obj n result).cancels = true ↔ result = .error .asyncCancelled := by
  rcases result with (_ | _) | _ <;> simp [cancels]

theorem Phase.cancels_threw {e : AsyncExn} :
    (Phase.threw e : Phase T F V).cancels = true ↔ e = .asyncCancelled := by
  cases e <;> simp [cancels]

theorem Phase.cancels_failed {e : AsyncExn} :
    (Phase.failed e : Phase T F V).cancels = true ↔ e = .asyncCancelled := by
  cases e <;> simp [cancels]

/-- The task that the coroutine runs. -/
def Phase.task : Phase T F V → Option ℕ
  | secondary _ n | recording _ n _ => some n
  | direct _ task | subsRunning _ task | selfRunning _ task | returned _ task _ => task
  | _ => none

/-- The task that the coroutine awaits. -/
def Phase.awaited : Phase T F V → Option ℕ
  | awaiting _ n => some n
  | _ => none

/-- What holds of the coroutine at a position; `cancelled` tells which resolutions are. -/
structure PhaseOk (cancelled : ℕ → Bool) (cache : MemoryCache K V) (t : ℕ) (p : Position)
    (phase : Phase T F V) : Prop where
  cancels : phase.cancels = true → cancelled t = true
  runs : ∀ n, phase.task = some n → n < cache.numTasks ∧ (cache.tasks n).tree = t
    ∧ (cache.tasks n).position = p ∧ (cache.tasks n).outcome = none
  awaits : ∀ n, phase.awaited = some n → n < cache.numTasks ∧ ((cache.tasks n).tree ≠ t →
    ((cache.tasks n).outcome = none → cancelled (cache.tasks n).tree = false)
      ∧ (cache.tasks n).outcome ≠ some (.error .asyncCancelled))

structure CacheOk (cancelled : ℕ → Bool) (numResolutions : ℕ) (cache : MemoryCache K V) :
    Prop where
  trees : ∀ n < cache.numTasks, (cache.tasks n).tree < numResolutions
  outcomes : ∀ n < cache.numTasks, (cache.tasks n).outcome = some (.error .asyncCancelled) →
    cancelled (cache.tasks n).tree = true
  records : ∀ key r, cache.records key = some r → r.task < cache.numTasks

def System.cancelled (s : System T F V K) (t : ℕ) : Bool := (s.resolution t).cancelled

/-- The exception is only where the cancelled resolutions are. -/
structure Isolated (s : System T F V K) : Prop where
  phases : ∀ t p, PhaseOk s.cancelled s.cache t p ((s.resolution t).activity p).phase
  cache : CacheOk s.cancelled s.numResolutions s.cache
  started : ∀ t p, ((s.resolution t).activity p).phase ≠ .idle → t < s.numResolutions

section
variable {cancelled : ℕ → Bool} {cache cache' : MemoryCache K V} {t t' : ℕ} {p p' : Position}
  {phase : Phase T F V}

/-- A phase that is about no task. -/
theorem phaseOk_of_none (hcancels : phase.cancels = true → cancelled t = true)
    (htask : phase.task = none) (hawaited : phase.awaited = none) :
    PhaseOk cancelled cache t p phase :=
  ⟨hcancels, by simp [htask], by simp [hawaited]⟩

/-- The tasks that there are stay as they are. -/
theorem phaseOk_of_tasks (h : PhaseOk cancelled cache t p phase)
    (hle : cache.numTasks ≤ cache'.numTasks)
    (heq : ∀ n < cache.numTasks, cache'.tasks n = cache.tasks n) :
    PhaseOk cancelled cache' t p phase := by
  refine ⟨h.cancels, fun n hn => ?_, fun n hn => ?_⟩
  · have hruns := h.runs n hn
    rw [heq n hruns.1]
    exact ⟨hruns.1.trans_le hle, hruns.2⟩
  · have hawaits := h.awaits n hn
    rw [heq n hawaits.1]
    exact ⟨hawaits.1.trans_le hle, hawaits.2⟩

/-- Going on with a task. -/
theorem phaseOk_of_runs (h : PhaseOk cancelled cache t p phase) {phase' : Phase T F V}
    (hcancels : phase'.cancels = true → cancelled t = true) (htask : phase'.task = phase.task)
    (hawaited : phase'.awaited = none) : PhaseOk cancelled cache t p phase' :=
  ⟨hcancels, by rw [htask]; exact h.runs, by simp [hawaited]⟩

/-- Other resolutions get cancelled. -/
theorem phaseOk_of_cancelled {cancelled' : ℕ → Bool} (h : PhaseOk cancelled cache t p phase)
    (hself : cancelled t = true → cancelled' t = true)
    (hawaits : ∀ n, phase.awaited = some n → n < cache.numTasks → (cache.tasks n).tree ≠ t →
      (cache.tasks n).outcome = none → cancelled (cache.tasks n).tree = false →
        cancelled' (cache.tasks n).tree = false) :
    PhaseOk cancelled' cache t p phase := by
  refine ⟨fun hcancels => hself (h.cancels hcancels), h.runs, fun n hn => ?_⟩
  obtain ⟨hlt, hforeign⟩ := h.awaits n hn
  exact ⟨hlt, fun htree => ⟨fun hnone => hawaits n hn hlt htree hnone ((hforeign htree).1 hnone),
    (hforeign htree).2⟩⟩

theorem phaseOk_leaveDirect (h : PhaseOk cancelled cache t p phase)
    {obj : FunctionRequestImpl T F V} {task : Option ℕ} (htask : phase.task = task)
    {result : Except AsyncExn V}
    (hresult : result = .error .asyncCancelled → cancelled t = true) :
    PhaseOk cancelled cache t p (leaveDirect obj task result) := by
  cases task with
  | some n =>
      refine phaseOk_of_runs h (fun hcancels => ?_) (by rw [htask]; rfl) rfl
      exact hresult (Phase.cancels_recording.mp hcancels)
  | none =>
      cases result with
      | ok v => exact phaseOk_of_none (by simp [leaveDirect, Phase.cancels]) rfl rfl
      | error e =>
          refine phaseOk_of_none (fun hcancels => hresult ?_) rfl rfl
          rw [Phase.cancels_threw.mp hcancels]

end

/-! ## The memory cache -/

section
variable [DecidableEq K] {cache cache' : MemoryCache K V} {key : K} {t : ℕ} {p : Position}

/-- What `acquire_cache_record` does to the tasks. -/
theorem acquire_cases (h : cache.acquire key t p = (cache', task)) :
    (task = none ∧ cache'.numTasks = cache.numTasks ∧ cache'.tasks = cache.tasks)
      ∨ (task = some cache.numTasks ∧ cache'.numTasks = cache.numTasks + 1
        ∧ cache'.tasks = Function.update cache.tasks cache.numTasks ⟨t, p, none⟩) := by
  unfold MemoryCache.acquire at h
  dsimp only at h
  split at h
  · cases h
    exact .inr ⟨rfl, rfl, rfl⟩
  · split at h
    · cases h
      exact .inr ⟨rfl, rfl, rfl⟩
    · cases h
      exact .inl ⟨rfl, rfl, rfl⟩

/-- The records refer to tasks that there are. -/
theorem records_acquire (h : cache.acquire key t p = (cache', task))
    (hrecords : ∀ key r, cache.records key = some r → r.task < cache.numTasks) :
    ∀ key r, cache'.records key = some r → r.task < cache'.numTasks := by
  intro key' r hr
  unfold MemoryCache.acquire at h
  dsimp only at h
  by_cases hkey : key' = key
  · subst hkey
    split at h
    · cases h
      simp only [Function.update_self, Option.some.injEq] at hr
      simp [← hr]
    · rename_i r' hr'
      split at h
      · cases h
        simp only [Function.update_self, Option.some.injEq] at hr
        simp [← hr]
      · cases h
        simp only [Function.update_self, Option.some.injEq] at hr
        rw [← hr]
        exact hrecords key' r' hr'
  · split at h
    · cases h
      simp only [Function.update_of_ne hkey] at hr
      exact Nat.lt_succ_of_lt (hrecords key' r hr)
    · split at h
      · cases h
        simp only [Function.update_of_ne hkey] at hr
        exact Nat.lt_succ_of_lt (hrecords key' r hr)
      · cases h
        simp only [Function.update_of_ne hkey] at hr
        exact hrecords key' r hr

/-- A record changes, but not its task. -/
theorem records_map {f : Record → Record} {n : ℕ} {key' : K} {r : Record}
    (hrecords : ∀ key r, cache.records key = some r → r.task < n)
    (hr : Function.update cache.records key ((cache.records key).map f) key' = some r)
    (hf : ∀ r, (f r).task = r.task) : r.task < n := by
  by_cases hkey : key' = key
  · subst hkey
    rw [Function.update_self] at hr
    obtain ⟨r', hr', rfl⟩ := Option.map_eq_some_iff.mp hr
    rw [hf]
    exact hrecords key' r' hr'
  · rw [Function.update_of_ne hkey] at hr
    exact hrecords key' r hr

variable {cancelled : ℕ → Bool} {numResolutions : ℕ}

theorem cacheOk_acquire (h : CacheOk cancelled numResolutions cache) (ht : t < numResolutions)
    (hacquire : cache.acquire key t p = (cache', task)) :
    CacheOk cancelled numResolutions cache' := by
  refine ⟨fun n hn => ?_, fun n hn houtcome => ?_, records_acquire hacquire h.records⟩
  · rcases acquire_cases hacquire with ⟨-, hnum, htasks⟩ | ⟨-, hnum, htasks⟩
    · rw [htasks]
      exact h.trees n (hnum ▸ hn)
    · rw [htasks]
      by_cases hnew : n = cache.numTasks
      · subst hnew
        rwa [Function.update_self]
      · rw [Function.update_of_ne hnew]
        exact h.trees n (by omega)
  · rcases acquire_cases hacquire with ⟨-, hnum, htasks⟩ | ⟨-, hnum, htasks⟩
    · rw [htasks] at houtcome ⊢
      exact h.outcomes n (hnum ▸ hn) houtcome
    · rw [htasks] at houtcome ⊢
      by_cases hnew : n = cache.numTasks
      · subst hnew
        simp at houtcome
      · rw [Function.update_of_ne hnew] at houtcome ⊢
        exact h.outcomes n (by omega) houtcome

theorem cacheOk_record (h : CacheOk cancelled numResolutions cache) {n : ℕ}
    {result : Except AsyncExn V}
    (hresult : result = .error .asyncCancelled → cancelled (cache.tasks n).tree = true) :
    CacheOk cancelled numResolutions (cache.record key n result) := by
  have htree : ∀ n', ((cache.record key n result).tasks n').tree = (cache.tasks n').tree := by
    intro n'
    by_cases hn : n' = n
    · subst hn
      simp [MemoryCache.record]
    · simp [MemoryCache.record, Function.update_of_ne hn]
  refine ⟨fun n' hn => ?_, fun n' hn houtcome => ?_, ?_⟩
  · rw [htree]
    exact h.trees n' hn
  · rw [htree]
    by_cases heq : n' = n
    · subst heq
      simp only [MemoryCache.record, Function.update_self, Option.some.injEq] at houtcome
      exact hresult houtcome
    · simp only [MemoryCache.record, Function.update_of_ne heq] at houtcome
      exact h.outcomes n' hn houtcome
  · intro key' r hr
    exact records_map h.records hr fun _ => rfl

theorem cacheOk_release (h : CacheOk cancelled numResolutions cache) :
    CacheOk cancelled numResolutions (cache.release key) :=
  ⟨h.trees, h.outcomes, fun _ _ hr => records_map h.records hr fun _ => rfl⟩

end

/-! ## Steps -/

section
variable [DecidableEq T] [DecidableEq K] {env : Env T F V K} {s : System T F V K} {t : ℕ}
  {p : Position} {e : Effect T F V} {cache : MemoryCache K V}

theorem move_cacheOk (h : Isolated s) (hmove : Move env s t p e cache) :
    CacheOk s.cancelled s.numResolutions cache := by
  have hself := h.phases t p
  have hstarted := h.started t p
  cases hmove with
  | join obj cache hphase hcache =>
      exact cacheOk_acquire h.cache (hstarted (by simp [hphase])) hcache
  | create obj cache n phase hphase hcache hnext =>
      exact cacheOk_acquire h.cache (hstarted (by simp [hphase])) hcache
  | record obj n result result' hphase hresult =>
      rw [hphase] at hself
      refine cacheOk_record h.cache fun hcancelled => ?_
      rw [(hself.runs n rfl).2.1]
      rcases hresult with rfl | hne
      · subst hcancelled
        exact hself.cancels rfl
      · exact absurd hcancelled hne
  | finishCached obj n result hphase houtcome => exact cacheOk_release h.cache
  | _ => exact h.cache

/-- The other coroutines. -/
theorem move_others (h : Isolated s) (hmove : Move env s t p e cache) {t' : ℕ} {p' : Position}
    (hne : ¬ (t' = t ∧ p' = p)) :
    PhaseOk s.cancelled cache t' p' ((s.resolution t').activity p').phase := by
  have hother := h.phases t' p'
  have hself := h.phases t p
  cases hmove with
  | join obj cache hphase hcache =>
      rcases acquire_cases hcache with ⟨-, hnum, htasks⟩ | ⟨hnone, -⟩
      · exact phaseOk_of_tasks hother hnum.ge fun n _ => by rw [htasks]
      · cases hnone
  | create obj cache n phase hphase hcache hnext =>
      rcases acquire_cases hcache with ⟨hsome, -⟩ | ⟨-, hnum, htasks⟩
      · cases hsome
      · refine phaseOk_of_tasks hother (by omega) fun n hn => ?_
        rw [htasks, Function.update_of_ne hn.ne]
  | record obj n result result' hphase hresult =>
      rw [hphase] at hself
      obtain ⟨-, htree, hposition, hnone⟩ := hself.runs n rfl
      refine ⟨hother.cancels, fun n' hn' => ?_, fun n' hn' => ?_⟩
      · have hruns := hother.runs n' hn'
        have hneq : n' ≠ n := by
          rintro rfl
          exact hne ⟨hruns.2.1.symm.trans htree, hruns.2.2.1.symm.trans hposition⟩
        simpa [MemoryCache.record, Function.update_of_ne hneq] using hruns
      · have hawaits := hother.awaits n' hn'
        by_cases heq : n' = n
        · subst heq
          refine ⟨hawaits.1, fun hforeign => ?_⟩
          simp only [MemoryCache.record, Function.update_self] at hforeign ⊢
          refine ⟨by simp, fun hcancelled => ?_⟩
          -- the task is cancelled, so its resolution is, but then nobody else awaits it
          have hrunning := (hawaits.2 hforeign).1 hnone
          rcases hresult with rfl | hother'
          · obtain rfl := Option.some.inj hcancelled
            rw [htree, hself.cancels rfl] at hrunning
            cases hrunning
          · exact hother' (Option.some.inj hcancelled)
        · simpa [MemoryCache.record, Function.update_of_ne heq] using hawaits
  | finishCached obj n result hphase houtcome =>
      exact phaseOk_of_tasks hother le_rfl fun n _ => rfl
  | _ => exact hother

end

/-- An exception that `when_all` throws was thrown by one of the coroutines. -/
theorem exists_failed_of_results {x : Resolution T F V} {p : Position}
    {as : List (FunctionRequest T F V)} {i : ℕ} {e : AsyncExn}
    (h : x.results p as i = some (.error e)) : ∃ q, (x.activity q).phase = .failed e := by
  induction as generalizing i with
  | nil => simp [Resolution.results] at h
  | cons a as ih =>
      obtain ⟨r, rs, hr, hrs, h⟩ := Resolution.results_cons h
      cases r with
      | error e' =>
          obtain rfl : e = e' := by simpa [Except.bind] using h
          have hcall : isCall a = true := by
            cases a with
            | value type v => simp [Resolution.resultOf] at hr
            | call => rfl
          rcases Resolution.resultOf_call hr hcall with ⟨v, hv, -⟩ | ⟨e', he, hfailed⟩
          · cases hv
          · rw [Except.error.inj he]
            exact ⟨_, hfailed⟩
      | ok v =>
          cases rs with
          | error e' =>
              obtain rfl : e = e' := by simpa [Except.bind, Except.map] using h
              exact ih hrs
          | ok vs => cases h

/-- The exception of an argument. -/
theorem cancelled_of_results {s : System T F V K} {t : ℕ} {p : Position} (h : Isolated s)
    {as : List (FunctionRequest T F V)} {i : ℕ} {result : AsyncExn}
    (hres : (s.resolution t).results p as i = some (.error result))
    (hresult : result = .asyncCancelled) : s.cancelled t = true := by
  obtain ⟨q, hq⟩ := exists_failed_of_results hres
  have hphase := (h.phases t q).cancels
  rw [hq, Phase.cancels_failed] at hphase
  exact hphase hresult

section
variable {env : Env T F V K} {s : System T F V K}

theorem isolated_resolve (h : Isolated s) {x : Resolution T F V}
    (hx : ∀ p, (x.activity p).phase = .idle ∨ (x.activity p).phase = .entered) :
    Isolated { s with
      resolution := Function.update s.resolution s.numResolutions x
      numResolutions := s.numResolutions + 1 } := by
  have hcancelled : ∀ t' < s.numResolutions, System.cancelled { s with
      resolution := Function.update s.resolution s.numResolutions x
      numResolutions := s.numResolutions + 1 } t' = s.cancelled t' := by
    intro t' ht
    simp [System.cancelled, Function.update_of_ne ht.ne]
  refine ⟨fun t' p' => ?_, ⟨fun n hn => ?_, fun n hn houtcome => ?_, h.cache.records⟩,
    fun t' p' hp => ?_⟩
  · by_cases ht : t' = s.numResolutions
    · subst ht
      simp only [Function.update_self]
      rcases hx p' with hp | hp <;> rw [hp] <;>
        exact phaseOk_of_none (by simp [Phase.cancels]) rfl rfl
    · simp only [Function.update_of_ne ht]
      refine phaseOk_of_cancelled (h.phases t' p') (fun hc => ?_) fun n _ hn _ _ hc => ?_
      · simpa [System.cancelled, Function.update_of_ne ht] using hc
      · rw [hcancelled _ (h.cache.trees n hn), hc]
  · exact Nat.lt_succ_of_lt (h.cache.trees n hn)
  · rw [hcancelled _ (h.cache.trees n hn)]
    exact h.cache.outcomes n hn houtcome
  · by_cases ht : t' = s.numResolutions
    · exact ht.le.trans_lt (Nat.lt_succ_self _)
    · simp only [Function.update_of_ne ht] at hp
      exact Nat.lt_succ_of_lt (h.started t' p' hp)

theorem isolated_cancel (h : Isolated s) {t : ℕ} (hok : Considerate env s (.cancel t)) :
    Isolated { s with
      resolution := Function.update s.resolution t { s.resolution t with cancelled := true } } := by
  have hactivity : ∀ t', (Function.update s.resolution t
      { s.resolution t with cancelled := true } t').activity = (s.resolution t').activity := by
    intro t'
    by_cases ht : t' = t
    · subst ht
      rw [Function.update_self]
    · rw [Function.update_of_ne ht]
  have hcancelled : ∀ t', s.cancelled t' = true → System.cancelled { s with
      resolution := Function.update s.resolution t
        { s.resolution t with cancelled := true } } t' = true := by
    intro t' hc
    by_cases ht : t' = t
    · subst ht
      simp [System.cancelled]
    · simpa [System.cancelled, Function.update_of_ne ht] using hc
  refine ⟨fun t' p' => ?_, ⟨h.cache.trees, fun n hn houtcome => ?_, h.cache.records⟩, ?_⟩
  · simp only [hactivity]
    refine phaseOk_of_cancelled (h.phases t' p') (hcancelled t') fun n hn _ htree hnone hc => ?_
    by_cases heq : (s.cache.tasks n).tree = t
    · -- nobody else awaits a running task of the resolution that is cancelled
      cases hphase : ((s.resolution t').activity p').phase with
      | awaiting obj n' =>
          rw [hphase] at hn
          obtain rfl := Option.some.inj hn
          exact absurd hnone (hok t' p' obj n' (fun ht => htree (heq.trans ht.symm)) hphase heq)
      | _ => simp [hphase, Phase.awaited] at hn
    · simpa [System.cancelled, Function.update_of_ne heq] using hc
  · exact hcancelled _ (h.cache.outcomes n hn houtcome)
  · intro t' p' hp
    simp only [hactivity] at hp
    exact h.started t' p' hp

/-- There is nobody to consider for a resolution on its own. -/
theorem considerate_of_alone (h : Isolated s) (hone : s.numResolutions ≤ 1)
    (event : Event T F V K) : Considerate env s event := by
  cases event with
  | cancel t =>
      intro t' p obj n hne hphase htree
      have ht' := h.started t' p (by simp [hphase])
      have hn := ((h.phases t' p).awaits n (by rw [hphase]; rfl)).1
      have ht := h.cache.trees n hn
      omega
  | advance t p input =>
      intro obj r hphase hrecord htree
      have ht' := h.started t p (by simp [hphase])
      have ht := h.cache.trees r.task (h.cache.records _ r hrecord)
      omega
  | _ => trivial

end

section
variable [DecidableEq T] [DecidableEq K] {env : Env T F V K} {s s' : System T F V K} {t : ℕ}
  {p : Position} {e : Effect T F V} {cache : MemoryCache K V}

/-- The coroutine itself. -/
theorem move_self (h : Isolated s) (hmove : Move env s t p e cache) {input : Input V}
    (hok : Considerate env s (.advance t p input)) :
    PhaseOk s.cancelled cache t p e.phase := by
  have hself := h.phases t p
  cases hmove with
  | resolveImpl obj hphase hobject =>
      rcases resolveImpl_cases env obj with he | he | he <;> rw [he] <;>
        exact phaseOk_of_none (by simp [Phase.cancels]) rfl rfl
  | finishClone obj res hphase hobject hres =>
      rcases finishClone_cases obj res with ⟨clone, he⟩ | ⟨exn, he, hcancelled⟩
      · rw [he]
        exact phaseOk_of_none (by simp [Phase.cancels]) rfl rfl
      · rw [he]
        refine phaseOk_of_none (fun hcancels => ?_) rfl rfl
        have hexn := Phase.cancels_threw.mp hcancels
        exact cancelled_of_results h (hcancelled hexn ▸ hres) hexn
  | join obj cache hphase hcache => exact phaseOk_of_none (by simp [Phase.cancels]) rfl rfl
  | create obj cache n phase hphase hcache hnext =>
      rcases acquire_cases hcache with ⟨hsome, -⟩ | ⟨hnew, hnum, htasks⟩
      · cases hsome
      · obtain rfl := Option.some.inj hnew
        have htask : cache.tasks s.cache.numTasks = ⟨t, p, none⟩ := by
          rw [htasks, Function.update_self]
        rcases hnext with rfl | rfl <;>
          refine ⟨by simp [Phase.cancels], fun n hn => ?_, by simp [Phase.awaited]⟩ <;>
          obtain rfl := Option.some.inj hn <;>
          exact ⟨by omega, by rw [htask], by rw [htask], by rw [htask]⟩
  | secondaryMiss obj n hphase =>
      rw [hphase] at hself
      exact phaseOk_of_runs hself (by simp [Phase.cancels]) rfl rfl
  | secondaryEnd obj n result hphase hresult =>
      rw [hphase] at hself
      refine phaseOk_of_runs hself (fun hcancels => ?_) rfl rfl
      exact absurd (Phase.cancels_recording.mp hcancels) hresult
  | resolveAsync obj task hphase =>
      rw [hphase] at hself
      unfold resolveAsync
      split
      · exact phaseOk_leaveDirect hself rfl (by simp)
      · exact phaseOk_of_runs hself (by simp [Phase.cancels]) rfl rfl
  | runSelf obj task res hphase hres =>
      rw [hphase] at hself
      cases res with
      | error result =>
          refine phaseOk_leaveDirect hself rfl fun hcancelled => ?_
          exact cancelled_of_results h hres (by simpa using hcancelled)
      | ok vs => exact phaseOk_of_runs hself (by simp [runSelf, Phase.cancels]) rfl rfl
  | returns obj task v hphase =>
      rw [hphase] at hself
      exact phaseOk_of_runs hself (by simp [Phase.cancels]) rfl rfl
  | throws obj task result hphase hcancelled =>
      rw [hphase] at hself
      exact phaseOk_leaveDirect hself rfl fun hresult => hcancelled (by simpa using hresult)
  | cancelDelegate obj task hphase =>
      rw [hphase] at hself
      exact hself
  | leave obj task v result hphase hresult =>
      rw [hphase] at hself
      exact phaseOk_leaveDirect hself rfl fun hcancelled => absurd hcancelled hresult
  | record obj n result result' hphase hresult =>
      exact phaseOk_of_none (by simp [Phase.cancels]) rfl rfl
  | await obj r hphase hrecord =>
      have htask := h.cache.records _ r hrecord
      refine ⟨by simp [Phase.cancels], by simp [Phase.task], fun n hn => ?_⟩
      obtain rfl := Option.some.inj hn
      refine ⟨htask, fun hforeign => ⟨fun hnone => ?_, fun houtcome => ?_⟩⟩
      · by_contra hcancelled
        exact (hok obj r hphase hrecord hforeign (by simpa [System.cancelled] using hcancelled)).1
          hnone
      · have hcancelled := h.cache.outcomes _ htask houtcome
        exact (hok obj r hphase hrecord hforeign hcancelled).2 houtcome
  | finishCached obj n result hphase houtcome =>
      rw [hphase] at hself
      obtain ⟨hn, hawaits⟩ := hself.awaits n rfl
      cases result with
      | ok v => exact phaseOk_of_none (by simp [finishCached, Phase.cancels]) rfl rfl
      | error result =>
          refine phaseOk_of_none (fun hcancels => ?_) rfl rfl
          obtain rfl := Phase.cancels_threw.mp hcancels
          by_cases htree : (s.cache.tasks n).tree = t
          · rw [← htree]
            exact h.cache.outcomes n hn houtcome
          · exact absurd houtcome (hawaits htree).2
  | retry result hphase => exact phaseOk_of_none (by simp [Phase.cancels]) rfl rfl
  | giveUp result result' hphase hresult =>
      rw [hphase] at hself
      refine phaseOk_of_none (fun hcancels => ?_) rfl rfl
      have hcancelled := Phase.cancels_failed.mp hcancels
      rcases hresult with rfl | hne
      · exact hself.cancels (Phase.cancels_threw.mpr hcancelled)
      · exact absurd hcancelled hne

theorem isolated_advance (h : Isolated s) (hmove : Move env s t p e cache) {input : Input V}
    (hok : Considerate env s (.advance t p input)) :
    Isolated { s with
      resolution := Function.update s.resolution t ((s.resolution t).apply p e)
      cache } := by
  have hcancelled : System.cancelled { s with
      resolution := Function.update s.resolution t ((s.resolution t).apply p e)
      cache } = s.cancelled := by
    funext t'
    by_cases ht : t' = t
    · subst ht
      simp [System.cancelled, Resolution.apply_cancelled]
    · simp [System.cancelled, Function.update_of_ne ht]
  have hcache := move_cacheOk h hmove
  refine ⟨fun t' p' => ?_, ?_, fun t' p' hp => ?_⟩
  · rw [hcancelled]
    by_cases ht : t' = t
    · subst ht
      simp only [Function.update_self]
      rcases (s.resolution t').apply_phase_cases (p := p) e p' with ⟨rfl, hp⟩ | ⟨hp, hneeds⟩ | hp
      · rw [hp]
        exact move_self h hmove hok
      · rw [hp]
        by_cases hself : p' = p
        · rw [cache_eq_of_move hmove (hneeds hself)]
          exact h.phases t' p'
        · exact move_others h hmove fun hboth => hself hboth.2
      · rw [hp]
        exact phaseOk_of_none (by simp [Phase.cancels]) rfl rfl
    · simp only [Function.update_of_ne ht]
      exact move_others h hmove fun hboth => ht hboth.1
  · rw [hcancelled]
    exact hcache
  · by_cases ht : t' = t
    · subst ht
      exact h.started t' p (ne_idle_of_move hmove)
    · simp only [Function.update_of_ne ht] at hp
      exact h.started t' p' hp

theorem step_isolated {event : Event T F V K} (h : Isolated s)
    (hok : Considerate env s event) (hstep : s.step env event = some s') : Isolated s' := by
  cases event with
  | resolve r usingResult =>
      simp only [System.step] at hstep
      split at hstep
      · obtain rfl := Option.some.inj hstep
        refine isolated_resolve h fun p => ?_
        by_cases hp : p = []
        · subst hp
          exact .inr rfl
        · exact .inl (by simp [Function.update_of_ne hp])
      · cases hstep
  | cancel t =>
      obtain rfl := Option.some.inj hstep
      exact isolated_cancel h hok
  | advance t p input =>
      obtain ⟨r, hr, rfl⟩ := Option.map_eq_some_iff.mp hstep
      exact isolated_advance h (effect_cases hr) hok
  | evict key =>
      simp only [System.step, Option.bind_eq_some_iff] at hstep
      obtain ⟨r, -, hstep⟩ := hstep
      split at hstep
      · obtain rfl := Option.some.inj hstep
        refine ⟨fun t p => ?_, ⟨h.cache.trees, h.cache.outcomes, fun key' r' hr' => ?_⟩, h.started⟩
        · exact phaseOk_of_tasks (h.phases t p) le_rfl fun _ _ => rfl
        · by_cases hkey : key' = key
          · subst hkey
            simp at hr'
          · simp only [Function.update_of_ne hkey] at hr'
            exact h.cache.records key' r' hr'
      · cases hstep

end

theorem isolated_initial (r : FunctionRequest T F V) :
    Isolated (System.initial r : System T F V K) where
  phases := fun _ _ => phaseOk_of_none (by simp [System.initial, Phase.cancels]) rfl rfl
  cache := ⟨by simp [System.initial], by simp [System.initial], by simp [System.initial]⟩
  started := fun _ _ hp => absurd rfl hp

/-! ## Runs -/

section
variable [DecidableEq T] [DecidableEq K] {env : Env T F V K} {s : System T F V K}

theorem reachable_of_alone {r : FunctionRequest T F V} {events : List (Event T F V K)}
    (hrun : Transition.run (System.step env) (.initial r) events = some s)
    (hone : Transition.StepsMeet (System.step env) (fun s _ => s.numResolutions ≤ 1) (.initial r)
      events) :
    Transition.Reachable (System.step env) (Considerate env) {s | ∃ r, s = .initial r} s := by
  have halone : Transition.Reachable (System.step env) (fun s _ => s.numResolutions ≤ 1)
      {s | ∃ r, s = .initial r} s := .run_of_stepsMeet (.start ⟨r, rfl⟩) hone hrun
  have hboth : Isolated s ∧ Transition.Reachable (System.step env) (Considerate env)
      {s | ∃ r, s = .initial r} s := by
    clear hrun hone
    induction halone with
    | start hs =>
        obtain ⟨r, rfl⟩ := hs
        exact ⟨isolated_initial r, .start ⟨r, rfl⟩⟩
    | @step s s' event _ hok hstep ih =>
        have hconsiderate : Considerate env s event := considerate_of_alone ih.1 hok event
        exact ⟨step_isolated ih.1 hconsiderate hstep, .step ih.2 hconsiderate hstep⟩
  exact hboth.2

end

/-! ## Examples -/

/-- A request of a function that can be cancelled. -/
def cancellable (level : CachingLevel) : FunctionRequest Unit ℕ ℕ :=
  .call
    { impl := { valueType := (), level, functionType := .coro }
      uuid := { base := "g".toList, level := some level }
      clonable := by cases level <;> exact ⟨_, rfl⟩ } 0 none []

/-- A resolution is cancelled while its function runs. -/
def cancelOwn : List (Event Unit ℕ ℕ RequestUuid) :=
  [.resolve (cancellable .none) false, .advance 0 [] .go, .advance 0 [] .go, .advance 0 [] .go,
    .cancel 0, .advance 0 [] (.throws .asyncCancelled), .advance 0 [] .go]

/-- Two resolutions of one cached request; the first to come is cancelled. -/
def cancelOther : List (Event Unit ℕ ℕ RequestUuid) :=
  [.resolve (cancellable .memory) false, .resolve (cancellable .memory) false,
    .advance 0 [] .go, .advance 0 [] .go, .advance 1 [] .go, .advance 1 [] .go, .advance 1 [] .go,
    .advance 0 [] .go, .advance 0 [] .go, .cancel 0, .advance 0 [] (.throws .asyncCancelled),
    .advance 0 [] .go, .advance 1 [] .go, .advance 1 [] .go]

end Cradle.Async
