import Cradle.Resolve.ContextPositions
import Cradle.Resolve.SharedTasks

/-!
# How far the requests get

A coroutine starts those for the arguments, awaits them all, and goes on when they have ended.
So where the arguments of a request have got to can be told from where the request itself is.
And it makes a cache record at most once unless it is retried, so that a task can be traced back
to the coroutine that runs it.
-/

namespace Cradle.Async

open Resolve

variable {T F V K : Type}

namespace Phase

def isIdle : Phase T F V → Bool
  | idle => true
  | _ => false

/-- There is no coroutine, or it has returned a value. -/
def calm : Phase T F V → Bool
  | idle | done _ => true
  | _ => false

/-- There is no coroutine, or it has ended. -/
def ended : Phase T F V → Bool
  | idle | done _ | failed _ => true
  | _ => false

def hasFailed : Phase T F V → Bool
  | failed _ => true
  | _ => false

/-- What phases the arguments may be in when the request is in the given one. -/
def allows : Phase T F V → Phase T F V → Bool
  | idle, q | entered, q | flattening, q | lookup _, q | secondary _ _, q | direct _ _, q => q.isIdle
  | subsRunning _ _, _ => true
  | selfRunning _ _, q | returned _ _ _, q | recording _ _ (.ok _), q | done _, q => q.calm
  | recording _ _ (.error _), q | acquired _, q | awaiting _ _, q | threw _, q | failed _, q =>
      q.ended

variable {phase phase' : Phase T F V}

theorem calm_of_isIdle (h : phase.isIdle = true) : phase.calm = true := by
  cases phase <;> first | rfl | cases h

theorem ended_of_calm (h : phase.calm = true) : phase.ended = true := by
  cases phase <;> first | rfl | cases h

theorem calm_of_ended (h : phase.ended = true) (hfailed : phase.hasFailed = false) :
    phase.calm = true := by
  cases phase <;> simp_all [ended, hasFailed, calm]

/-- Only while the arguments are awaited may they be on their way. -/
theorem subsRunning_of_allows (h : phase.allows phase' = true) (hactive : phase'.ended = false) :
    ∃ obj task, phase = .subsRunning obj task := by
  have hcalm : phase'.calm = false := by
    rw [Bool.eq_false_iff]
    intro hcalm
    simp [ended_of_calm hcalm] at hactive
  have hidle : phase'.isIdle = false := by
    rw [Bool.eq_false_iff]
    intro hidle
    simp [calm_of_isIdle hidle] at hcalm
  cases phase with
  | subsRunning obj task => exact ⟨obj, task, rfl⟩
  | recording obj n result => cases result <;> simp_all [allows]
  | _ => simp_all [allows]

end Phase

/-- Every request is as far as its arguments let it get. -/
def Ordered (x : Resolution T F V) : Prop :=
  ∀ p i, (x.activity p).phase.allows (x.activity (p ++ [i])).phase = true

section
variable {x : Resolution T F V} {p : Position} {obj : FunctionRequestImpl T F V}

/-- Below a request whose arguments are calm all is calm. -/
theorem calm_below (h : Ordered x) (hp : ∀ i, (x.activity (p ++ [i])).phase.calm = true)
    {d : Position} (hd : d ≠ []) : (x.activity (p ++ d)).phase.calm = true := by
  induction d generalizing p with
  | nil => exact absurd rfl hd
  | cons i d ih =>
      rw [List.append_cons]
      cases d with
      | nil => simpa using hp i
      | cons j d =>
          apply ih
          · intro j
            have hallows := h (p ++ [i]) j
            have hi := hp i
            cases hphase : (x.activity (p ++ [i])).phase with
            | idle =>
                rw [hphase] at hallows
                exact Phase.calm_of_isIdle hallows
            | done v =>
                rw [hphase] at hallows
                exact hallows
            | _ =>
                rw [hphase] at hi
                cases hi
          · exact List.cons_ne_nil j d

/-- Only the requests among the arguments get coroutines. -/
theorem call_of_active (h : Placed x) (hobject : x.object p = some obj) {i : ℕ}
    (hi : (x.activity (p ++ [i])).phase ≠ .idle) :
    ∃ a, obj.args[i]? = some a ∧ isCall a = true := by
  obtain ⟨o, hsits⟩ := h.sits _ hi
  have hsome : (x.object (p ++ i :: [])).isSome = true := by
    rw [hsits.object]
    rfl
  obtain ⟨obj', a, hobj', ha, hcall⟩ := object_of_append hsome
  obtain rfl := Option.some.inj (hobject.symm.trans hobj')
  exact ⟨a, ha, hcall⟩

theorem ended_of_results {as : List (FunctionRequest T F V)} {i : ℕ}
    {res : Except AsyncExn (List V)} (h : x.results p as i = some res) {j : ℕ}
    {a : FunctionRequest T F V} (ha : as[j]? = some a) (hcall : isCall a = true) :
    (x.activity (p ++ [i + j])).phase.ended = true := by
  induction as generalizing i j res with
  | nil => simp at ha
  | cons b as ih =>
      obtain ⟨r, rs, hr, hrs, -⟩ := Resolution.results_cons h
      cases j with
      | zero =>
          obtain rfl := Option.some.inj ha
          rw [Nat.add_zero]
          rcases Resolution.resultOf_call hr hcall with ⟨v, -, hdone⟩ | ⟨e, -, hfailed⟩
          · rw [hdone]
            rfl
          · rw [hfailed]
            rfl
      | succ j =>
          rw [show i + (j + 1) = i + 1 + j by omega]
          exact ih hrs ha

end

/-! ## Steps keep the order -/

section
variable {x : Resolution T F V} {p : Position} {obj : FunctionRequestImpl T F V} {e : Effect T F V}

/-- The coroutines that a step creates. -/
theorem created_of_proceed (he : e.Proper x p obj) {q : Position}
    (hq : q ≠ p) : (x.proceed p e).activity q = x.activity q
      ∨ ∃ as i, e.subTasks = some (.async as) ∧ q = p ++ [i]
        ∧ ((x.proceed p e).activity q).phase = .entered := by
  rcases x.proceed_activity_cases e hq with h | ⟨ts, i, a, hts, ha, hcall, hpos, h⟩
  · exact .inl h
  · cases ts with
    | sync as =>
        have := he.sync as hts a (List.mem_of_getElem? ha)
        simp [hcall] at this
    | async as => exact .inr ⟨as, i, hts, hpos, by rw [h]⟩

theorem ordered_proceed (h : Ordered x) (he : e.Proper x p obj)
    (hactive : (x.activity p).phase.ended = false)
    (hallows : ∀ i, e.phase.allows (x.activity (p ++ [i])).phase = true)
    (hasync : ∀ as, e.subTasks = some (.async as) → (∃ o task, e.phase = .subsRunning o task)
      ∧ ∀ i, (x.activity (p ++ [i])).phase.isIdle = true) : Ordered (x.proceed p e) := by
  intro q i
  have hself := (x.proceed_activity_self (p := p) e).2
  by_cases hqp : q = p
  · subst hqp
    rw [hself]
    rcases created_of_proceed he (q := q ++ [i]) (by simp) with hsame | ⟨as, j, has, -, -⟩
    · rw [hsame]
      exact hallows i
    · obtain ⟨o, task, hphase⟩ := (hasync as has).1
      rw [hphase]
      rfl
  · rcases created_of_proceed he hqp with hsame | ⟨as, j, has, rfl, hentered⟩
    · rw [hsame]
      by_cases hip : q ++ [i] = p
      · -- the request above waits, and goes on doing so
        have hwaits := h q i
        rw [hip] at hwaits ⊢
        obtain ⟨o, task, hphase⟩ := Phase.subsRunning_of_allows hwaits hactive
        rw [hphase]
        rfl
      · rcases created_of_proceed he hip with hsub | ⟨as, j, -, hpos, -⟩
        · rw [hsub]
          exact h q i
        · exact absurd (List.append_inj_left' hpos rfl) hqp
    · -- the new coroutine has none below it
      have hidle := (hasync as has).2 j
      have hbelow := h (p ++ [j]) i
      cases hphase : (x.activity (p ++ [j])).phase with
      | idle =>
          rw [hphase] at hbelow
          rw [hentered]
          have hne : p ++ [j] ++ [i] ≠ p := by simp
          rcases created_of_proceed he hne with hsub | ⟨as', j', -, hpos, -⟩
          · rw [hsub]
            exact hbelow
          · simp at hpos
      | _ =>
          rw [hphase] at hidle
          cases hidle

end

section
variable [DecidableEq T] [DecidableEq K] {env : Env T F V K} {s : System T F V K} {t : ℕ}
  {p : Position} {e : Effect T F V} {cache : MemoryCache K V} {obj : FunctionRequestImpl T F V}

theorem active_of_move (h : Move env s t p e cache) :
    ((s.resolution t).activity p).phase.ended = false := by
  cases h <;> simp_all [Phase.ended]

/-- Coroutines for arguments are created when there are none. -/
theorem async_of_move (h : Move env s t p e cache) (hordered : Ordered (s.resolution t))
    {as : List (FunctionRequest T F V)} (has : e.subTasks = some (.async as)) :
    (∃ o task, e.phase = .subsRunning o task)
      ∧ ∀ i, ((s.resolution t).activity (p ++ [i])).phase.isIdle = true := by
  have hi := hordered p
  cases h with
  | resolveAsync obj' task hphase =>
      rw [hphase] at hi
      refine ⟨?_, hi⟩
      unfold resolveAsync at has ⊢
      split at has
      · cases has
      · exact ⟨obj', task, rfl⟩
  | resolveImpl obj' hphase hobject =>
      rcases resolveImpl_cases env obj' with he | he | he <;> rw [he] at has <;> cases has
  | finishClone obj' res hphase hobject hres =>
      rcases finishClone_cases obj' res with ⟨clone, he⟩ | ⟨exn, he, -⟩ <;> rw [he] at has <;>
        cases has
  | runSelf obj' task res hphase hres => cases res <;> cases has
  | finishCached obj' n result hphase houtcome => cases result <;> cases has
  | _ => cases has

omit [DecidableEq T] [DecidableEq K] in
theorem allows_leaveDirect {task : Option ℕ} {result : Except AsyncExn V} {phase : Phase T F V}
    (hok : ∀ v, result = .ok v → phase.calm = true) (hended : phase.ended = true) :
    (leaveDirect obj task result).allows phase = true := by
  cases result with
  | ok v => cases task <;> exact hok v rfl
  | error e => cases task <;> exact hended

/-- A step other than a retry leads to a phase that the arguments allow, unless a value comes from
the cache after an argument has failed. -/
theorem allows_of_move (h : Move env s t p e cache) (hordered : Ordered (s.resolution t))
    (hplaced : Placed (s.resolution t)) (hsits : Sits (s.resolution t) p obj)
    (hretries : e.retries = false)
    (hcached : ∀ o n v, ((s.resolution t).activity p).phase = .awaiting o n →
      (s.cache.tasks n).outcome = some (.ok v) →
        ∀ i, ((s.resolution t).activity (p ++ [i])).phase.hasFailed = false) (i : ℕ) :
    e.phase.allows ((s.resolution t).activity (p ++ [i])).phase = true := by
  have hi := hordered p i
  have hidle : ∀ q : Phase T F V, q.isIdle = true → q.ended = true :=
    fun q hq => Phase.ended_of_calm (Phase.calm_of_isIdle hq)
  cases h with
  | resolveImpl obj' hphase hobject =>
      rw [hphase] at hi
      rcases resolveImpl_cases env obj' with he | he | he <;> rw [he] <;> exact hi
  | finishClone obj' res hphase hobject hres =>
      rw [hphase] at hi
      rcases finishClone_cases obj' res with ⟨clone, he⟩ | ⟨exn, he, -⟩
      · rw [he]
        exact hi
      · rw [he]
        exact hidle _ hi
  | join obj' cache hphase hcache =>
      rw [hphase] at hi
      exact hidle _ hi
  | create obj' cache n phase hphase hcache hnext =>
      rw [hphase] at hi
      rcases hnext with rfl | rfl <;> exact hi
  | secondaryMiss obj' n hphase =>
      rw [hphase] at hi
      exact hi
  | secondaryEnd obj' n result hphase hresult =>
      rw [hphase] at hi
      cases result with
      | ok v => exact Phase.calm_of_isIdle hi
      | error e => exact hidle _ hi
  | resolveAsync obj' task hphase =>
      rw [hphase] at hi
      unfold resolveAsync
      split
      · exact allows_leaveDirect (fun _ _ => Phase.calm_of_isIdle hi) (hidle _ hi)
      · rfl
  | runSelf obj' task res hphase hres =>
      have hended : ((s.resolution t).activity (p ++ [i])).phase.ended = true
          ∧ ∀ vs, res = .ok vs → ((s.resolution t).activity (p ++ [i])).phase.calm = true := by
        by_cases hactive : ((s.resolution t).activity (p ++ [i])).phase = .idle
        · rw [hactive]
          exact ⟨rfl, fun _ _ => rfl⟩
        · obtain ⟨a, ha, hcall⟩ := call_of_active hplaced hsits.object hactive
          have hfits := hsits.fits obj' (by rw [hphase]; rfl)
          have ha' := (hfits.calls i a hcall).mpr ha
          have hended := ended_of_results hres ha' hcall
          rw [Nat.zero_add] at hended
          refine ⟨hended, ?_⟩
          rintro vs rfl
          obtain ⟨v, hdone⟩ := done_of_results hres ha' hcall
          rw [Nat.zero_add] at hdone
          rw [hdone]
          rfl
      cases res with
      | error e => exact allows_leaveDirect (by simp) hended.1
      | ok vs => exact hended.2 vs rfl
  | returns obj' task v hphase =>
      rw [hphase] at hi
      exact hi
  | throws obj' task e hphase hcancelled =>
      rw [hphase] at hi
      exact allows_leaveDirect (by simp) (Phase.ended_of_calm hi)
  | cancelDelegate obj' task hphase =>
      rw [hphase] at hi
      exact hi
  | leave obj' task v result hphase hresult =>
      rw [hphase] at hi
      exact allows_leaveDirect (fun _ _ => hi) (Phase.ended_of_calm hi)
  | record obj' n result result' hphase hresult =>
      rw [hphase] at hi
      cases result with
      | ok v => exact Phase.ended_of_calm hi
      | error e => exact hi
  | await obj' r hphase hrecord =>
      rw [hphase] at hi
      exact hi
  | finishCached obj' n result hphase houtcome =>
      rw [hphase] at hi
      cases result with
      | ok v => exact Phase.calm_of_ended hi (hcached obj' n v hphase houtcome i)
      | error e => exact hi
  | retry e hphase => cases hretries
  | giveUp e e' hphase he =>
      rw [hphase] at hi
      exact hi

end

/-! ## Whose tasks there are -/

/-- The task is one that the coroutine at a position has made. -/
def MemoryCache.Owns (cache : MemoryCache K V) (t : ℕ) (p : Position) (n : ℕ) : Prop :=
  n < cache.numTasks ∧ (cache.tasks n).tree = t ∧ (cache.tasks n).position = p

/-- The cache pointer has not been made, or its task has not ended. -/
def Phase.early : Phase T F V → Bool
  | acquired _ | awaiting _ _ | threw _ | done _ | failed _ => false
  | _ => true

/-- Up to the end of its task, a coroutine has made no other one. -/
structure Tracks (cache : MemoryCache K V) (t : ℕ) (p : Position) (phase : Phase T F V) :
    Prop where
  runs : ∀ n, phase.task = some n → cache.Owns t p n
  fresh : phase.early = true → ∀ n, cache.Owns t p n → phase.task = some n

structure Tracked (s : System T F V K) : Prop where
  phases : ∀ t p, Tracks s.cache t p ((s.resolution t).activity p).phase
  trees : ∀ n < s.cache.numTasks, (s.cache.tasks n).tree < s.numResolutions
  started : ∀ t p, ((s.resolution t).activity p).phase ≠ .idle → t < s.numResolutions

section
variable {cache cache' : MemoryCache K V} {t : ℕ} {p : Position} {phase phase' : Phase T F V}

theorem tracks_of_owns (h : Tracks cache t p phase)
    (howns : ∀ n, cache'.Owns t p n ↔ cache.Owns t p n) : Tracks cache' t p phase :=
  ⟨fun n hn => (howns n).mpr (h.runs n hn), fun hearly n hn => h.fresh hearly n ((howns n).mp hn)⟩

/-- Going on with the same task, or none. -/
theorem tracks_of_task (h : Tracks cache t p phase) (htask : phase'.task = phase.task)
    (hearly : phase'.early = true → phase.early = true) : Tracks cache t p phase' :=
  ⟨by rw [htask]; exact h.runs, fun he => by rw [htask]; exact h.fresh (hearly he)⟩

theorem tracks_of_late (htask : phase.task = none) (hearly : phase.early = false) :
    Tracks cache t p phase :=
  ⟨by simp [htask], by simp [hearly]⟩

theorem tracks_leaveDirect (h : Tracks cache t p phase) (hearly : phase.early = true)
    {obj : FunctionRequestImpl T F V} {task : Option ℕ} (htask : phase.task = task)
    (result : Except AsyncExn V) : Tracks cache t p (leaveDirect obj task result) := by
  cases task with
  | some n => exact tracks_of_task h (by rw [htask]; rfl) fun _ => hearly
  | none => cases result <;> exact tracks_of_late rfl rfl

end

section
variable [DecidableEq T] [DecidableEq K] {env : Env T F V K} {s : System T F V K} {t : ℕ}
  {p : Position} {e : Effect T F V} {cache : MemoryCache K V}

/-- A step makes at most one task, which is its own. -/
theorem owns_of_move (h : Move env s t p e cache) :
    (cache.numTasks = s.cache.numTasks
      ∧ ∀ t' p' n, cache.Owns t' p' n ↔ s.cache.Owns t' p' n)
    ∨ (cache.numTasks = s.cache.numTasks + 1 ∧ ∀ t' p' n,
      cache.Owns t' p' n ↔ s.cache.Owns t' p' n ∨ (n = s.cache.numTasks ∧ t' = t ∧ p' = p)) := by
  cases h with
  | join obj cache hphase hcache =>
      rcases acquire_cases hcache with ⟨-, hnum, htasks⟩ | ⟨hnone, -⟩
      · exact .inl ⟨hnum, fun t' p' n => by simp only [MemoryCache.Owns, hnum, htasks]⟩
      · cases hnone
  | create obj cache m phase hphase hcache hnext =>
      rcases acquire_cases hcache with ⟨hsome, -⟩ | ⟨-, hnum, htasks⟩
      · cases hsome
      · refine .inr ⟨hnum, fun t' p' n => ?_⟩
        simp only [MemoryCache.Owns, hnum, htasks]
        by_cases hn : n = s.cache.numTasks
        · subst hn
          simp [eq_comm]
        · simp only [Function.update_of_ne hn, hn, false_and, or_false]
          have hlt : n < s.cache.numTasks + 1 ↔ n < s.cache.numTasks := by omega
          rw [hlt]
  | record obj m result result' hphase hresult =>
      refine .inl ⟨rfl, fun t' p' n => ?_⟩
      by_cases hn : n = m
      · subst hn
        simp [MemoryCache.Owns, MemoryCache.record]
      · simp [MemoryCache.Owns, MemoryCache.record, Function.update_of_ne hn]
  | finishCached obj m result hphase houtcome => exact .inl ⟨rfl, fun t' p' n => Iff.rfl⟩
  | _ => exact .inl ⟨rfl, fun t' p' n => Iff.rfl⟩

/-- The coroutine itself, unless it tries again. -/
theorem tracks_of_move (h : Move env s t p e cache) (hretries : e.retries = false)
    (htracks : Tracks s.cache t p ((s.resolution t).activity p).phase) :
    Tracks cache t p e.phase := by
  cases h with
  | resolveImpl obj hphase hobject =>
      rw [hphase] at htracks
      rcases resolveImpl_cases env obj with he | he | he <;> rw [he] <;>
        exact tracks_of_task htracks rfl fun _ => rfl
  | finishClone obj res hphase hobject hres =>
      rw [hphase] at htracks
      rcases finishClone_cases obj res with ⟨clone, he⟩ | ⟨exn, he, -⟩
      · rw [he]
        exact tracks_of_task htracks rfl fun _ => rfl
      · rw [he]
        exact tracks_of_late rfl rfl
  | join obj cache hphase hcache => exact tracks_of_late rfl rfl
  | create obj cache n phase hphase hcache hnext =>
      rw [hphase] at htracks
      rcases acquire_cases hcache with ⟨hsome, -⟩ | ⟨hnew, hnum, htasks⟩
      · cases hsome
      · obtain rfl := Option.some.inj hnew
        have howns : ∀ n, cache.Owns t p n → n = s.cache.numTasks := by
          intro n hn
          obtain ⟨hlt, htree, hposition⟩ := hn
          by_contra hne
          have hold : s.cache.Owns t p n := by
            rw [htasks, Function.update_of_ne hne] at htree hposition
            exact ⟨by omega, htree, hposition⟩
          cases htracks.fresh rfl n hold
        have hown : cache.Owns t p s.cache.numTasks := by
          simp [MemoryCache.Owns, hnum, htasks]
        have htask : phase.task = some s.cache.numTasks := by rcases hnext with rfl | rfl <;> rfl
        constructor
        · intro n hn
          rw [htask] at hn
          obtain rfl := Option.some.inj hn
          exact hown
        · intro _ n hn
          rw [htask, howns n hn]
  | secondaryMiss obj n hphase =>
      rw [hphase] at htracks
      exact tracks_of_task htracks rfl fun _ => rfl
  | secondaryEnd obj n result hphase hresult =>
      rw [hphase] at htracks
      exact tracks_of_task htracks rfl fun _ => rfl
  | resolveAsync obj task hphase =>
      rw [hphase] at htracks
      unfold resolveAsync
      split
      · exact tracks_leaveDirect htracks rfl rfl _
      · exact tracks_of_task htracks rfl fun _ => rfl
  | runSelf obj task res hphase hres =>
      rw [hphase] at htracks
      cases res with
      | error e => exact tracks_leaveDirect htracks rfl rfl _
      | ok vs => exact tracks_of_task htracks rfl fun _ => rfl
  | returns obj task v hphase =>
      rw [hphase] at htracks
      exact tracks_of_task htracks rfl fun _ => rfl
  | throws obj task e hphase hcancelled =>
      rw [hphase] at htracks
      exact tracks_leaveDirect htracks rfl rfl _
  | cancelDelegate obj task hphase =>
      rw [hphase] at htracks
      exact htracks
  | leave obj task v result hphase hresult =>
      rw [hphase] at htracks
      exact tracks_leaveDirect htracks rfl rfl _
  | record obj n result result' hphase hresult => exact tracks_of_late rfl rfl
  | await obj r hphase hrecord => exact tracks_of_late rfl rfl
  | finishCached obj n result hphase houtcome =>
      cases result <;> exact tracks_of_late rfl rfl
  | retry e hphase => cases hretries
  | giveUp e e' hphase he => exact tracks_of_late rfl rfl

/-- The others. -/
theorem tracks_of_others (h : Move env s t p e cache) {t' : ℕ} {p' : Position}
    (hne : ¬ (t' = t ∧ p' = p)) {phase : Phase T F V} (htracks : Tracks s.cache t' p' phase) :
    Tracks cache t' p' phase := by
  refine tracks_of_owns htracks fun n => ?_
  rcases owns_of_move h with ⟨-, howns⟩ | ⟨-, howns⟩
  · exact howns t' p' n
  · rw [howns]
    exact or_iff_left fun hnew => hne hnew.2

theorem tracked_advance {obj : FunctionRequestImpl T F V} (h : Tracked s)
    (hmove : Move env s t p e cache) (hordered : Ordered (s.resolution t))
    (he : e.Proper (s.resolution t) p obj) (hretries : e.retries = false) :
    Tracked { s with
      resolution := Function.update s.resolution t ((s.resolution t).proceed p e)
      cache } := by
  have hstarted := h.started t p (ne_idle_of_move hmove)
  refine ⟨fun t' p' => ?_, fun n hn => ?_, fun t' p' hp => ?_⟩
  · by_cases ht : t' = t
    · subst ht
      simp only [Function.update_self]
      by_cases hp : p' = p
      · subst hp
        rw [((s.resolution t').proceed_activity_self (p := p') e).2]
        exact tracks_of_move hmove hretries (h.phases t' p')
      · have hold := tracks_of_others hmove (fun hboth => hp hboth.2) (h.phases t' p')
        rcases created_of_proceed he hp with hsame | ⟨as, i, has, rfl, hentered⟩
        · rw [hsame]
          exact hold
        · -- there was no coroutine before
          have hidle := (async_of_move hmove hordered has).2 i
          rw [hentered]
          cases hphase : ((s.resolution t').activity (p ++ [i])).phase with
          | idle =>
              rw [hphase] at hold
              exact tracks_of_task hold rfl fun _ => rfl
          | _ =>
              rw [hphase] at hidle
              cases hidle
    · simp only [Function.update_of_ne ht]
      exact tracks_of_others hmove (fun hboth => ht hboth.1) (h.phases t' p')
  · have hown : cache.Owns (cache.tasks n).tree (cache.tasks n).position n := ⟨hn, rfl, rfl⟩
    rcases owns_of_move hmove with ⟨-, howns⟩ | ⟨-, howns⟩
    · obtain ⟨hlt, htree, -⟩ := (howns _ _ n).mp hown
      rw [← htree]
      exact h.trees n hlt
    · rcases (howns _ _ n).mp hown with ⟨hlt, htree, -⟩ | ⟨-, htree, -⟩
      · rw [← htree]
        exact h.trees n hlt
      · rw [htree]
        exact hstarted
  · by_cases ht : t' = t
    · rw [ht]
      exact hstarted
    · simp only [Function.update_of_ne ht] at hp
      exact h.started t' p' hp

end

section
variable {s : System T F V K}

theorem tracked_initial (r : FunctionRequest T F V) :
    Tracked (System.initial r : System T F V K) where
  phases _ _ := by
    constructor
    · intro n hn
      cases hn
    · intro _ n hn
      exact absurd hn.1 (Nat.not_lt_zero n)
  trees n hn := absurd hn (Nat.not_lt_zero n)
  started _ _ hp := absurd rfl hp

/-- A resolution where only the request at the root has a coroutine. -/
theorem ordered_of_root {x : Resolution T F V} (hroot : (x.activity []).phase = .entered)
    (hbelow : ∀ p, p ≠ [] → (x.activity p).phase = .idle) : Ordered x := by
  intro p i
  rw [hbelow (p ++ [i]) (by simp)]
  by_cases hp : p = []
  · rw [hp, hroot]
    rfl
  · rw [hbelow p hp]
    rfl

/-- A resolution is started. -/
theorem tracked_resolve (h : Tracked s) {x : Resolution T F V}
    (hx : ∀ p, (x.activity p).phase = .idle ∨ (x.activity p).phase = .entered) :
    Tracked { s with
      resolution := Function.update s.resolution s.numResolutions x
      numResolutions := s.numResolutions + 1 } := by
  refine ⟨fun t p => ?_, fun n hn => Nat.lt_succ_of_lt (h.trees n hn), fun t p hp => ?_⟩
  · by_cases ht : t = s.numResolutions
    · subst ht
      simp only [Function.update_self]
      have hnone : ∀ n, ¬ s.cache.Owns s.numResolutions p n := by
        intro n hn
        have hlt := h.trees n hn.1
        rw [hn.2.1] at hlt
        omega
      have htask : (x.activity p).phase.task = none := by rcases hx p with hp | hp <;> rw [hp] <;> rfl
      exact ⟨by simp [htask], fun _ n hn => absurd hn (hnone n)⟩
    · simp only [Function.update_of_ne ht]
      exact h.phases t p
  · by_cases ht : t = s.numResolutions
    · exact ht.le.trans_lt (Nat.lt_succ_self _)
    · simp only [Function.update_of_ne ht] at hp
      exact Nat.lt_succ_of_lt (h.started t p hp)

end

end Cradle.Async
