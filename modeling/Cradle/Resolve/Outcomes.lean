import Cradle.Resolve.Progress

/-!
# What a context shows in the end

A client polls the status of a context to learn what has become of the request.  The status is
set where a request is resolved: by `resolve_async_coro` and its variants, and, for a value that
came from a cache, by `resolve_request_cached`.  Some ways of failing have nobody who sets it.
A contained request has no handlers; neither has whoever awaits another one's task or consults the
secondary cache.  And `update_status` on a context finishes those below,
which is wrong if one of these has failed.

The messages of the contexts are kept beside the resolutions here.
-/

namespace Cradle.Async

open Resolve
open Remote (AsyncStatus)

variable {T F V K : Type}

/-! ## Messages -/

/-- The resolutions, and the `errmsg_` of each context. -/
structure Observed (T F V K : Type) where
  system : System T F V K
  errmsg : ℕ → Position → String := fun _ _ => ""

/-- No resolution has been started. -/
def Observed.initial (r : FunctionRequest T F V) : Observed T F V K where
  system := .initial r

/-- What the handlers pass to `update_status_error`; `what` gives the message of an exception. -/
def Effect.errmsg (what : Exn → String) (e : Effect T F V) : Option String :=
  if .failed ∈ e.statuses then
    match e.phase with
    | .recording _ _ (.error (.other exn)) | .threw (.other exn) => some (what exn)
    | _ => none
  else none

/-- The messages in the tree of a resolution after a step. -/
def Effect.storeErrmsg (what : Exn → String) (e : Effect T F V) (ctx : Position)
    (errmsg : Position → String) : Position → String :=
  match e.errmsg what with
  | some msg => Function.update errmsg ctx msg
  | none => errmsg

/-- The messages after an event. -/
def Observed.errmsgAfter [DecidableEq T] [DecidableEq K] (env : Env T F V K) (what : Exn → String)
    (o : Observed T F V K) : Event T F V K → ℕ → Position → String
  | .advance t p input =>
      match o.system.effect env t p input with
      | some (e, _) =>
          Function.update o.errmsg t
            (e.storeErrmsg what ((o.system.resolution t).activity p).ctx (o.errmsg t))
      | none => o.errmsg
  | _ => o.errmsg

def Observed.step [DecidableEq T] [DecidableEq K] (env : Env T F V K) (what : Exn → String)
    (o : Observed T F V K) (event : Event T F V K) : Option (Observed T F V K) :=
  (o.system.step env event).map fun s => ⟨s, o.errmsgAfter env what event⟩

/-! ## What is asked for -/

/-- What the resolution of a request has ended with. -/
def Phase.outcome : Phase T F V → Option (Except AsyncExn V)
  | done v => some (.ok v)
  | failed e => some (.error e)
  | _ => none

/-- A context shows what has become of its request. -/
def Resolution.Shows (x : Resolution T F V) (what : Exn → String) (errmsg : Position → String)
    (c : Position) : Except AsyncExn V → Prop
  | .ok _ => x.status c = if c = [] ∧ x.usingResult then .awaitingResult else .finished
  | .error .asyncCancelled => x.status c = .cancelled
  | .error (.other e) => x.status c = .failed ∧ errmsg c = what e

/-- Every request that has been resolved has a context that shows how. -/
def Observed.OutcomesShown (what : Exn → String) (o : Observed T F V K) : Prop :=
  ∀ t p result, ((o.system.resolution t).activity p).phase.outcome = some result →
    (o.system.resolution t).Shows what (o.errmsg t) p result

/-- What a task has thrown. -/
def Task.thrown (task : Task V) : Option AsyncExn :=
  match task.outcome with
  | some (.error e) => some e
  | _ => none

/-- The step sets a status where one is due, or there is one already.

A tree has no value-based request with requests for arguments, or nothing is cached.  The
secondary cache and the conversions of values do not fail; a contained request, and its arguments,
do not throw, unless the cancellation of its delegate has been recorded; an awaited task throws only
what a task of the same request has thrown; and a value comes from a cache only if no argument has
failed.  Nothing is tried again. -/
def System.reports [DecidableEq T] (env : Env T F V K) (s : System T F V K) :
    Event T F V K → Bool
  | .resolve r _ => !env.supportCaching || decide (ValueBasedFlat r)
  | .advance t p input =>
      let x := s.resolution t
      match (x.activity p).phase, input with
      | .secondary _ _, .fails _ | .returned _ _ _, .fails _ | .recording _ _ _, .fails _ => false
      | .subsRunning obj _, _ =>
          obj.containment.isNone || (x.results p obj.args 0).all (·.isOk)
      | .selfRunning obj _, .throws e =>
          obj.containment.isNone || (e = .asyncCancelled && x.status p = .cancelled)
      | .awaiting _ n, _ =>
          match (s.cache.tasks n).thrown with
          | some e => decide (∃ m < s.cache.numTasks, (s.cache.tasks m).tree = t
              ∧ (s.cache.tasks m).position = p ∧ (s.cache.tasks m).thrown = some e)
          | none => decide (∀ i < x.numSubs p, (x.activity (p ++ [i])).phase.hasFailed = false)
      | .threw e, _ =>
          (x.object p).all fun obj =>
            !(e = .other .httpRequestFailure && (x.activity p).attempt < obj.props.retries)
      | _, _ => true
  | _ => true

/-! ## Statuses -/

namespace ContextTree

theorem updateStatus_self (st : AsyncStatus) (tree : ContextTree) (c : Position)
    (status : Position → AsyncStatus) : tree.updateStatus st c status c = st := by
  cases tree
  rw [updateStatus, Function.update_self]

mutual
/-- The contexts below can only get FINISHED, together with the context itself. -/
theorem updateStatus_below (st : AsyncStatus) : ∀ (tree : ContextTree) (c : Position)
    (status : Position → AsyncStatus) (c' : Position), c' ≠ c →
    tree.updateStatus st c status c' = status c'
      ∨ (st.almostFinished = true ∧ tree.updateStatus st c status c' = .finished)
  | .node _ subs, c, status, c', hc => by
      rw [updateStatus, Function.update_of_ne hc]
      split
      · rename_i hst
        exact (finishSubs_values subs c 0 status c').imp id fun h => ⟨hst.2, h⟩
      · exact .inl rfl
theorem finishSubs_values : ∀ (subs : List ContextTree) (c : Position) (i : ℕ)
    (status : Position → AsyncStatus) (c' : Position),
    finishSubs subs c i status c' = status c' ∨ finishSubs subs c i status c' = .finished
  | [], _, _, _, _ => .inl rfl
  | sub :: subs, c, i, status, c' => by
      rw [finishSubs]
      rcases finishSubs_values subs c (i + 1) (updateStatus .finished sub (c ++ [i]) status) c'
        with h | h
      · rw [h]
        by_cases hc : c' = c ++ [i]
        · rw [hc]
          exact .inr (updateStatus_self _ sub _ status)
        · exact (updateStatus_below .finished sub (c ++ [i]) status c' hc).imp id (·.2)
      · exact .inr h
end

end ContextTree

namespace Resolution

variable {x : Resolution T F V} {p c c' : Position}

/-- What the context has after `update_status`. -/
theorem updateStatus_self (st : AsyncStatus) {context : ContextTree}
    (hc : Positions.sub ContextTree.subs (contextTree x.request) c = some context) :
    (x.updateStatus c st).status c
      = if c = [] ∧ x.usingResult ∧ st = .finished then .awaitingResult else st := by
  rw [updateStatus, hc]
  dsimp only
  by_cases hroot : c = []
  · rw [if_pos hroot, ContextTree.updateStatus_self]
    simp [hroot]
  · rw [if_neg hroot, ContextTree.updateStatus_self, if_neg fun h => hroot h.1]

theorem updateStatus_below (st : AsyncStatus) (hc : c' ≠ c) :
    (x.updateStatus c st).status c' = x.status c'
      ∨ (st.almostFinished = true ∧ (x.updateStatus c st).status c' = .finished) := by
  unfold updateStatus
  split
  · exact .inl rfl
  · rename_i context hcontext
    have hfirst := context.updateStatus_below st c x.status c' hc
    dsimp only
    split
    · rcases context.updateStatus_below
        (if x.usingResult = true ∧ st = .finished then .awaitingResult else st) c
        (context.updateStatus st c x.status) c' hc with h | ⟨halmost, h⟩
      · rw [h]
        exact hfirst
      · refine .inr ⟨?_, h⟩
        split at halmost
        · rename_i hst
          rw [hst.2]
          rfl
        · exact halmost
    · exact hfirst

@[simp] theorem updateStatus_usingResult (st : AsyncStatus) :
    (x.updateStatus c st).usingResult = x.usingResult := by
  unfold updateStatus; split <;> rfl

theorem foldl_updateStatus_below (sts : List AsyncStatus) (hc : c' ≠ c) :
    (sts.foldl (·.updateStatus c ·) x).status c' = x.status c'
      ∨ ((∃ st ∈ sts, st.almostFinished = true)
        ∧ (sts.foldl (·.updateStatus c ·) x).status c' = .finished) := by
  induction sts generalizing x with
  | nil => exact .inl rfl
  | cons st sts ih =>
      rw [List.foldl_cons]
      rcases ih (x := x.updateStatus c st) with h | ⟨⟨st', hmem, halmost⟩, h⟩
      · rw [h]
        rcases x.updateStatus_below st hc with h' | ⟨halmost, h'⟩
        · exact .inl h'
        · exact .inr ⟨⟨st, List.mem_cons_self, halmost⟩, h'⟩
      · exact .inr ⟨⟨st', List.mem_cons_of_mem _ hmem, halmost⟩, h⟩

theorem foldl_updateStatus_usingResult (sts : List AsyncStatus) :
    (sts.foldl (·.updateStatus c ·) x).usingResult = x.usingResult := by
  induction sts generalizing x with
  | nil => rfl
  | cons st sts ih => rw [List.foldl_cons, ih, updateStatus_usingResult]

theorem proceed_usingResult (e : Effect T F V) :
    (x.proceed p e).usingResult = x.usingResult := by
  unfold proceed
  rw [foldl_updateStatus_usingResult]
  cases hts : e.subTasks with
  | none => rfl
  | some ts => cases ts <;> rfl

/-- The step of a coroutine that updates the status of its context once. -/
theorem proceed_status_self {e : Effect T F V} {st : AsyncStatus} (hst : e.statuses = [st])
    (hctx : (x.activity p).ctx = p) (hobject : (x.object p).isSome = true) :
    (x.proceed p e).status p
      = if p = [] ∧ x.usingResult ∧ st = .finished then .awaitingResult else st := by
  obtain ⟨obj, hobj⟩ := Option.isSome_iff_exists.mp hobject
  obtain ⟨props, f, cont, hr, -⟩ := exists_of_object hobj
  have hcontext := (sub_contextTree x.request p).trans (congrArg (Option.map contextTree) hr)
  have husing := x.proceed_usingResult (p := p) e
  obtain ⟨y, h, hrequest, -⟩ := x.proceed_eq (p := p) e
  rw [h, hst, hctx, List.foldl_cons, List.foldl_nil] at husing ⊢
  rw [← hrequest] at hcontext
  rw [updateStatus_usingResult] at husing
  rw [updateStatus_self st hcontext, husing]

theorem proceed_status_of_nil {e : Effect T F V} (hst : e.statuses = []) :
    (x.proceed p e).status = x.status := by
  obtain ⟨y, h, -, hstatus, -⟩ := x.proceed_eq (p := p) e
  rw [h, hst]
  exact hstatus

/-- A step leaves the other contexts as they are, but for those below that get FINISHED. -/
theorem proceed_status_below (e : Effect T F V) (hctx : (x.activity p).ctx = p) (hc : c ≠ p) :
    (x.proceed p e).status c = x.status c
      ∨ (p <+: c ∧ (∃ st ∈ e.statuses, st.almostFinished = true)
        ∧ (x.proceed p e).status c = .finished) := by
  rcases x.proceed_status_cases (p := p) e c with h | ⟨hbelow, -⟩
  · exact .inl h
  · obtain ⟨y, h, -, hstatus, -⟩ := x.proceed_eq (p := p) e
    rw [h, hctx, ← hstatus]
    rw [hctx] at hbelow
    rcases foldl_updateStatus_below (x := y) e.statuses hc with hsame | ⟨hst, hfinished⟩
    · exact .inl hsame
    · exact .inr ⟨hbelow, hst, hfinished⟩

end Resolution

/-! ## What is known of a request -/

namespace Phase

/-- What the context has to show already. -/
def verdict : Phase T F V → Option (Except AsyncExn V)
  | done v => some (.ok v)
  | recording _ _ (.error e) | threw e | failed e => some (.error e)
  | _ => none

/-- The cache pointer is there, and the value is not. -/
def pointed : Phase T F V → Bool
  | acquired _ | awaiting _ _ => true
  | _ => false

end Phase

/-- The context shows what it has to, also a failure of a task that the request has made. -/
structure Told (what : Exn → String) (cache : MemoryCache K V) (t : ℕ) (x : Resolution T F V)
    (errmsg : Position → String) (p : Position) : Prop where
  shows : ∀ r, (x.activity p).phase.verdict = some r → x.Shows what errmsg p r
  failures : (x.activity p).phase.pointed = true → ∀ n e, cache.Owns t p n →
    (cache.tasks n).thrown = some e → x.Shows what errmsg p (.error e)

section
variable {what : Exn → String} {cache : MemoryCache K V} {t : ℕ} {x x' : Resolution T F V}
  {errmsg errmsg' : Position → String} {p c : Position}

theorem shows_of_same {r : Except AsyncExn V} (h : x.Shows what errmsg c r)
    (hstatus : x'.status c = x.status c) (husing : x'.usingResult = x.usingResult)
    (herrmsg : errmsg' c = errmsg c) : x'.Shows what errmsg' c r := by
  rcases r with (_ | _) | _ <;> simp only [Resolution.Shows] at h ⊢
  · rw [hstatus, h]
  · rw [hstatus, herrmsg]
    exact h
  · rw [hstatus, husing, h]

/-- Nothing has to be shown yet. -/
theorem told_of_quiet (hverdict : (x.activity p).phase.verdict = none)
    (hpointed : (x.activity p).phase.pointed = false) : Told what cache t x errmsg p :=
  ⟨by simp [hverdict], by simp [hpointed]⟩

theorem storeErrmsg_of_ne (e : Effect T F V) (hc : c ≠ p) :
    e.storeErrmsg what p errmsg c = errmsg c := by
  cases h : e.errmsg what with
  | none => simp only [Effect.storeErrmsg, h]
  | some msg => simp only [Effect.storeErrmsg, h, Function.update_of_ne hc]

theorem storeErrmsg_of_nil {e : Effect T F V} (hst : e.statuses = []) :
    e.storeErrmsg what p errmsg = errmsg := by
  simp [Effect.storeErrmsg, Effect.errmsg, hst]

theorem shows_of_nil {e : Effect T F V} (hst : e.statuses = []) {r : Except AsyncExn V}
    (h : x.Shows what errmsg c r) : (x.proceed p e).Shows what (e.storeErrmsg what p errmsg) c r :=
  shows_of_same h (by rw [Resolution.proceed_status_of_nil hst]) (x.proceed_usingResult e)
    (by rw [storeErrmsg_of_nil hst])

theorem shows_finished {e : Effect T F V} (hst : e.statuses = [.finished])
    (hctx : (x.activity p).ctx = p) (hobject : (x.object p).isSome = true) (v : V) :
    (x.proceed p e).Shows what errmsg p (.ok v) := by
  simp only [Resolution.Shows]
  rw [Resolution.proceed_status_self hst hctx hobject, x.proceed_usingResult e]
  simp

/-- What the handlers of `resolve_async_coro` store. -/
theorem shows_error {obj : FunctionRequestImpl T F V} {task : Option ℕ} {exn : AsyncExn}
    (hcontainment : obj.containment = none) (hctx : (x.activity p).ctx = p)
    (hobject : (x.object p).isSome = true) :
    (x.proceed p { phase := leaveDirect obj task (.error exn)
                   statuses := errorStatuses obj exn }).Shows what
      (Effect.storeErrmsg what { phase := leaveDirect obj task (.error exn)
                                 statuses := errorStatuses obj exn } p errmsg) p (.error exn) := by
  cases exn with
  | asyncCancelled =>
      have hst : errorStatuses obj .asyncCancelled = [.cancelled] := by
        simp [errorStatuses, hcontainment]
      simp only [Resolution.Shows, hst]
      rw [Resolution.proceed_status_self rfl hctx hobject]
      simp
  | other e =>
      have hst : errorStatuses obj (.other e) = [.failed] := by
        simp [errorStatuses, hcontainment]
      simp only [Resolution.Shows, hst]
      constructor
      · rw [Resolution.proceed_status_self rfl hctx hobject]
        simp
      · cases task <;> simp [Effect.storeErrmsg, Effect.errmsg, leaveDirect]

end

/-! ## Steps that report -/

/-- Plain values need not be waited for. -/
theorem results_of_values {x : Resolution T F V} {p : Position}
    {as : List (FunctionRequest T F V)}
    (h : ∀ a ∈ as, isCall a = false) (i : ℕ) : ∃ vs, x.results p as i = some (.ok vs) := by
  induction as generalizing i with
  | nil => exact ⟨[], rfl⟩
  | cons a as ih =>
      obtain ⟨vs, hvs⟩ := ih (fun b hb => h b (List.mem_cons_of_mem _ hb)) (i + 1)
      cases a with
      | value type v => exact ⟨v :: vs, by simp [Resolution.results, Resolution.resultOf, hvs]; rfl⟩
      | call props f c args => exact absurd (h _ List.mem_cons_self) (by simp [isCall])

section
variable [DecidableEq T] {env : Env T F V K} {s : System T F V K} {t : ℕ} {p : Position}
  {input : Input V} {obj obj' : FunctionRequestImpl T F V}

theorem subsRunning_of_reports {task : Option ℕ} (hok : s.reports env (.advance t p input) = true)
    (hphase : ((s.resolution t).activity p).phase = .subsRunning obj task) {e : AsyncExn}
    (hres : (s.resolution t).results p obj.args 0 = some (.error e)) : obj.containment = none := by
  simpa [System.reports, hphase, hres, Except.isOk, Except.toBool] using hok

theorem awaiting_of_reports {n : ℕ} (hok : s.reports env (.advance t p input) = true)
    (hphase : ((s.resolution t).activity p).phase = .awaiting obj n) {e : AsyncExn}
    (hres : (s.cache.tasks n).outcome = some (.error e)) :
    ∃ m, s.cache.Owns t p m ∧ (s.cache.tasks m).thrown = some e := by
  have hthrown : (s.cache.tasks n).thrown = some e := by simp [Task.thrown, hres]
  simp only [System.reports, hphase, hthrown, decide_eq_true_eq] at hok
  obtain ⟨m, hm, htree, hposition, hexn⟩ := hok
  exact ⟨m, ⟨hm, htree, hposition⟩, hexn⟩

/-- No argument has failed when a value comes from the cache. -/
theorem hasFailed_of_reports {n : ℕ} (hok : s.reports env (.advance t p input) = true)
    (hphase : ((s.resolution t).activity p).phase = .awaiting obj n) {v : V}
    (hres : (s.cache.tasks n).outcome = some (.ok v)) (hplaced : Placed (s.resolution t))
    (hsits : Sits (s.resolution t) p obj') (i : ℕ) :
    ((s.resolution t).activity (p ++ [i])).phase.hasFailed = false := by
  have hthrown : (s.cache.tasks n).thrown = none := by simp [Task.thrown, hres]
  simp only [System.reports, hphase, hthrown, decide_eq_true_eq] at hok
  by_cases hactive : ((s.resolution t).activity (p ++ [i])).phase = .idle
  · rw [hactive]
    rfl
  · obtain ⟨a, ha, -⟩ := call_of_active hplaced hsits.object hactive
    apply hok
    rw [numSubs_eq hsits.object]
    exact (List.getElem?_eq_some_iff.mp ha).1

variable [DecidableEq K] {r : Effect T F V × MemoryCache K V}

/-- Every request can be cloned. -/
theorem verdict_of_flattening (h : s.effect env t p input = some r)
    (hphase : ((s.resolution t).activity p).phase = .flattening)
    (hsits : Sits (s.resolution t) p obj) : r.1.phase.verdict = none := by
  have hvalues := hsits.knows
  rw [hphase] at hvalues
  have hobject := hsits.object
  obtain ⟨vs, hvs⟩ := results_of_values (x := s.resolution t) (p := p) hvalues 0
  obtain ⟨u, hu⟩ : ∃ u, obj.props.uuid.makeCloneUuid = .ok u := by
    obtain ⟨props, f, c, -, hobj⟩ := exists_of_object hobject
    rw [hobj]
    exact props.clonable
  cases input with
  | go =>
      simp only [System.effect, hphase, hobject, Option.bind_some, hvs, Option.map_some,
        Option.some.injEq, finishClone, makeFlattenedClone_eq hu] at h
      rw [← h]
      rfl
  | _ => simp [System.effect, hphase] at h

theorem secondary_of_reports {n : ℕ} (h : s.effect env t p input = some r)
    (hok : s.reports env (.advance t p input) = true)
    (hphase : ((s.resolution t).activity p).phase = .secondary obj n) :
    r.1.phase.verdict = none := by
  cases input with
  | go | found =>
      simp only [System.effect, hphase, Option.some.injEq] at h
      rw [← h]
      rfl
  | fails e => simp [System.reports, hphase] at hok
  | _ => simp [System.effect, hphase] at h

theorem returned_of_reports {task : Option ℕ} {v : V} (h : s.effect env t p input = some r)
    (hok : s.reports env (.advance t p input) = true)
    (hphase : ((s.resolution t).activity p).phase = .returned obj task v) :
    r.1 = { phase := leaveDirect obj task (.ok v), statuses := [.finished] } := by
  cases input with
  | go =>
      simp only [System.effect, hphase, Option.some.injEq] at h
      rw [← h]
  | fails e => simp [System.reports, hphase] at hok
  | _ => simp [System.effect, hphase] at h

theorem recording_of_reports {n : ℕ} {result : Except AsyncExn V}
    (h : s.effect env t p input = some r) (hok : s.reports env (.advance t p input) = true)
    (hphase : ((s.resolution t).activity p).phase = .recording obj n result) :
    r = ({ phase := .acquired obj }, s.cache.record (env.capturedId obj) n result) := by
  cases input with
  | go =>
      simp only [System.effect, hphase, Option.some.injEq] at h
      exact h.symm
  | fails e => simp [System.reports, hphase] at hok
  | _ => simp [System.effect, hphase] at h

theorem threw_of_reports {e : AsyncExn} (h : s.effect env t p input = some r)
    (hok : s.reports env (.advance t p input) = true)
    (hphase : ((s.resolution t).activity p).phase = .threw e) : r.1 = { phase := .failed e } := by
  cases hobject : (s.resolution t).object p with
  | none => cases input <;> simp [System.effect, hphase, hobject] at h
  | some obj =>
      have hretry : ¬ (e = .other .httpRequestFailure
          ∧ ((s.resolution t).activity p).attempt < obj.props.retries) := by
        simpa [System.reports, hphase, hobject, Decidable.imp_iff_not_or] using hok
      cases input with
      | go =>
          simp only [System.effect, hphase, hobject, Option.map_some, if_neg hretry,
            Option.some.injEq] at h
          rw [← h]
      | fails e' => simp [System.effect, hphase, hobject, if_neg hretry] at h
      | _ => simp [System.effect, hphase] at h

theorem selfRunning_of_reports {task : Option ℕ} (h : s.effect env t p input = some r)
    (hok : s.reports env (.advance t p input) = true)
    (hphase : ((s.resolution t).activity p).phase = .selfRunning obj task) :
    (r.1.phase.verdict = none ∧ r.1.phase.pointed = false)
      ∨ ∃ e, r.1 = { phase := leaveDirect obj task (.error e), statuses := errorStatuses obj e }
        ∧ (obj.containment = none
          ∨ (e = .asyncCancelled ∧ (s.resolution t).status p = .cancelled)) := by
  cases input with
  | returns v =>
      simp only [System.effect, hphase, Option.some.injEq] at h
      rw [← h]
      exact .inl ⟨rfl, rfl⟩
  | throws e =>
      simp only [System.effect, hphase, Option.ite_none_left_eq_some, Option.some.injEq] at h
      rw [← h.2]
      exact .inr ⟨e, rfl, by simpa [System.reports, hphase] using hok⟩
  | cancelDelegate =>
      simp only [System.effect, hphase, Option.ite_none_right_eq_some, Option.some.injEq] at h
      rw [← h.2]
      exact .inl ⟨rfl, rfl⟩
  | _ => simp [System.effect, hphase] at h

end

/-! ## The coroutine itself -/

section
variable {what : Exn → String} {cache : MemoryCache K V} {t : ℕ} {x : Resolution T F V}
  {errmsg : Position → String} {p : Position} {e : Effect T F V} {obj : FunctionRequestImpl T F V}
  {task : Option ℕ}

theorem told_quiet (hverdict : e.phase.verdict = none) (hpointed : e.phase.pointed = false) :
    Told what cache t (x.proceed p e) (e.storeErrmsg what p errmsg) p := by
  have hself := (x.proceed_activity_self (p := p) e).2
  exact told_of_quiet (by rw [hself, hverdict]) (by rw [hself, hpointed])

theorem told_verdict {r : Except AsyncExn V} (hverdict : e.phase.verdict = some r)
    (hpointed : e.phase.pointed = false)
    (hshows : (x.proceed p e).Shows what (e.storeErrmsg what p errmsg) p r) :
    Told what cache t (x.proceed p e) (e.storeErrmsg what p errmsg) p := by
  have hself := (x.proceed_activity_self (p := p) e).2
  constructor
  · intro r' hr
    rw [hself, hverdict] at hr
    rwa [← Option.some.inj hr]
  · intro hp
    rw [hself, hpointed] at hp
    cases hp

/-- The cache pointer is there. -/
theorem told_pointed (hverdict : e.phase.verdict = none) (hst : e.statuses = [])
    (hfailures : ∀ n exn, cache.Owns t p n → (cache.tasks n).thrown = some exn →
      x.Shows what errmsg p (.error exn)) :
    Told what cache t (x.proceed p e) (e.storeErrmsg what p errmsg) p := by
  have hself := (x.proceed_activity_self (p := p) e).2
  constructor
  · intro r hr
    rw [hself, hverdict] at hr
    cases hr
  · exact fun _ n exn hn hexn => shows_of_nil hst (hfailures n exn hn hexn)

theorem told_finished {v : V} (hphase : e.phase = leaveDirect obj task (.ok v))
    (hst : e.statuses = [.finished]) (hctx : (x.activity p).ctx = p)
    (hobject : (x.object p).isSome = true) :
    Told what cache t (x.proceed p e) (e.storeErrmsg what p errmsg) p := by
  cases task with
  | none =>
      refine told_verdict (by rw [hphase]; rfl) (by rw [hphase]; rfl) ?_
      exact shows_finished hst hctx hobject v
  | some n => exact told_quiet (by rw [hphase]; rfl) (by rw [hphase]; rfl)

theorem told_failed {exn : AsyncExn} (hcontainment : obj.containment = none)
    (hctx : (x.activity p).ctx = p) (hobject : (x.object p).isSome = true) :
    Told what cache t
      (x.proceed p { phase := leaveDirect obj task (.error exn)
                     statuses := errorStatuses obj exn })
      (Effect.storeErrmsg what { phase := leaveDirect obj task (.error exn)
                                 statuses := errorStatuses obj exn } p errmsg) p := by
  refine told_verdict (r := .error exn) ?_ ?_ (shows_error hcontainment hctx hobject)
  · cases task <;> rfl
  · cases task <;> rfl

end

section
variable [DecidableEq T] [DecidableEq K] {env : Env T F V K} {s : System T F V K} {t : ℕ}
  {p : Position} {input : Input V} {e : Effect T F V} {cache : MemoryCache K V}
  {obj : FunctionRequestImpl T F V} {what : Exn → String} {errmsg : Position → String}

theorem told_selfRunning {obj' : FunctionRequestImpl T F V} {task : Option ℕ}
    (h : s.effect env t p input = some (e, cache))
    (hok : s.reports env (.advance t p input) = true) (hsits : Sits (s.resolution t) p obj)
    (hphase : ((s.resolution t).activity p).phase = .selfRunning obj' task) :
    Told what cache t ((s.resolution t).proceed p e) (e.storeErrmsg what p errmsg) p := by
  have hobject : ((s.resolution t).object p).isSome = true := by
    rw [hsits.object]
    rfl
  rcases selfRunning_of_reports h hok hphase with ⟨hverdict, hpointed⟩ | ⟨exn, he, hcases⟩
  · exact told_quiet hverdict hpointed
  · dsimp only at he
    rw [he]
    cases hcontainment : obj'.containment with
    | none => exact told_failed hcontainment hsits.ctx hobject
    | some c =>
        -- the cancellation of the delegate has been recorded
        obtain ⟨rfl, hstatus⟩ := hcases.resolve_left (by simp [hcontainment])
        have hst : errorStatuses obj' .asyncCancelled = [] := by
          simp [errorStatuses, hcontainment]
        refine told_verdict (r := .error .asyncCancelled) ?_ ?_ (shows_of_nil hst hstatus)
        · cases task <;> rfl
        · cases task <;> rfl

theorem told_self (h : s.effect env t p input = some (e, cache))
    (hok : s.reports env (.advance t p input) = true) (hsits : Sits (s.resolution t) p obj)
    (htracks : Tracks s.cache t p ((s.resolution t).activity p).phase)
    (htold : Told what s.cache t (s.resolution t) errmsg p) :
    Told what cache t ((s.resolution t).proceed p e) (e.storeErrmsg what p errmsg) p := by
  have hctx := hsits.ctx
  have hobject : ((s.resolution t).object p).isSome = true := by
    rw [hsits.object]
    rfl
  have hmove := effect_cases h
  dsimp only at hmove
  cases hmove with
  | resolveImpl obj' hphase _ =>
      rcases resolveImpl_cases env obj' with he | he | he <;> rw [he] <;> exact told_quiet rfl rfl
  | finishClone obj' res hphase _ hres =>
      refine told_quiet (verdict_of_flattening h hphase hsits) ?_
      rcases finishClone_cases obj' res with ⟨clone, he⟩ | ⟨exn, he, -⟩ <;> rw [he] <;> rfl
  | join obj' cache hphase hcache =>
      refine told_pointed rfl rfl fun n exn hn _ => ?_
      rcases acquire_cases hcache with ⟨-, hnum, htasks⟩ | ⟨hnone, -⟩
      · rw [hphase] at htracks
        simp only [MemoryCache.Owns, hnum, htasks] at hn
        cases htracks.fresh rfl n hn
      · cases hnone
  | create obj' cache n phase hphase hcache hnext =>
      rcases hnext with rfl | rfl <;> exact told_quiet rfl rfl
  | secondaryMiss obj' n hphase => exact told_quiet rfl rfl
  | secondaryEnd obj' n result hphase hresult =>
      exact told_quiet (secondary_of_reports h hok hphase) rfl
  | resolveAsync obj' task hphase =>
      unfold resolveAsync
      split
      · exact told_finished rfl rfl hctx hobject
      · exact told_quiet rfl rfl
  | runSelf obj' task res hphase hres =>
      cases res with
      | error exn =>
          exact told_failed (subsRunning_of_reports hok hphase hres) hctx hobject
      | ok vs => exact told_quiet rfl rfl
  | returns obj' task v hphase => exact told_selfRunning h hok hsits hphase
  | throws obj' task exn hphase hcancelled => exact told_selfRunning h hok hsits hphase
  | cancelDelegate obj' task hphase => exact told_selfRunning h hok hsits hphase
  | leave obj' task v result hphase hresult =>
      have he := returned_of_reports h hok hphase
      dsimp only at he
      rw [he]
      exact told_finished rfl rfl hctx hobject
  | record obj' n result result' hphase hresult =>
      have hr := recording_of_reports h hok hphase
      rw [hphase] at htracks
      obtain ⟨-, hcache⟩ := Prod.mk.inj hr
      rw [hcache]
      refine told_pointed rfl rfl fun m exn hm hexn => ?_
      have hm' : s.cache.Owns t p m := by
        by_cases hmn : m = n
        · subst hmn
          simpa [MemoryCache.Owns, MemoryCache.record] using hm
        · simpa [MemoryCache.Owns, MemoryCache.record, Function.update_of_ne hmn] using hm
      obtain rfl := Option.some.inj (htracks.fresh rfl m hm')
      simp only [Task.thrown, MemoryCache.record, Function.update_self] at hexn
      cases result with
      | error exn' =>
          obtain rfl : exn' = exn := by simpa using hexn
          exact htold.shows _ (by rw [hphase]; rfl)
      | ok v => simp at hexn
  | await obj' r hphase hrecord =>
      exact told_pointed rfl rfl (htold.failures (by rw [hphase]; rfl))
  | finishCached obj' n result hphase houtcome =>
      cases result with
      | ok v =>
          refine told_verdict (r := .ok v) rfl rfl (shows_finished rfl hctx hobject v)
      | error exn =>
          obtain ⟨m, hm, hexn⟩ := awaiting_of_reports hok hphase houtcome
          refine told_verdict (r := .error exn) rfl rfl (shows_of_nil rfl ?_)
          exact htold.failures (by rw [hphase]; rfl) m exn hm hexn
  | retry exn hphase =>
      have he := threw_of_reports h hok hphase
      cases he
  | giveUp exn exn' hphase hexn =>
      have he := threw_of_reports h hok hphase
      dsimp only at he
      rw [he]
      refine told_verdict (r := .error exn) rfl rfl (shows_of_nil rfl ?_)
      exact htold.shows _ (by rw [hphase]; rfl)

theorem retries_of_reports (h : s.effect env t p input = some (e, cache))
    (hok : s.reports env (.advance t p input) = true) : e.retries = false := by
  have hmove := effect_cases h
  dsimp only at hmove
  cases hmove with
  | resolveImpl obj =>
      rcases resolveImpl_cases env obj with he | he | he <;> rw [he]
  | finishClone obj res =>
      rcases finishClone_cases obj res with ⟨clone, he⟩ | ⟨exn, he, -⟩ <;> rw [he]
  | resolveAsync => unfold resolveAsync; split <;> rfl
  | runSelf _ _ res => cases res <;> rfl
  | finishCached _ _ result => cases result <;> rfl
  | retry exn hphase =>
      have he := threw_of_reports h hok hphase
      cases he
  | _ => rfl

theorem allows_of_reports (h : s.effect env t p input = some (e, cache))
    (hok : s.reports env (.advance t p input) = true) (hordered : Ordered (s.resolution t))
    (hplaced : Placed (s.resolution t)) (hsits : Sits (s.resolution t) p obj) (i : ℕ) :
    e.phase.allows ((s.resolution t).activity (p ++ [i])).phase = true := by
  refine allows_of_move (effect_cases h) hordered hplaced hsits (retries_of_reports h hok) ?_ i
  intro obj' n v hphase houtcome
  exact hasFailed_of_reports hok hphase houtcome hplaced hsits

/-- A context gets finished when the arguments have values. -/
theorem calm_of_reports (h : s.effect env t p input = some (e, cache))
    (hok : s.reports env (.advance t p input) = true) (hordered : Ordered (s.resolution t))
    (hplaced : Placed (s.resolution t)) (hsits : Sits (s.resolution t) p obj)
    (hst : ∃ st ∈ e.statuses, st.almostFinished = true) (i : ℕ) :
    ((s.resolution t).activity (p ++ [i])).phase.calm = true := by
  have hallows := allows_of_reports h hok hordered hplaced hsits i
  obtain ⟨st, hmem, halmost⟩ := hst
  have hmove := effect_cases h
  dsimp only at hmove
  -- the phase that follows is one with a value
  cases hmove with
  | resolveImpl obj' =>
      rcases resolveImpl_cases env obj' with he | he | he <;> rw [he] at hmem <;> cases hmem
  | finishClone obj' res =>
      rcases finishClone_cases obj' res with ⟨clone, he⟩ | ⟨exn, he, -⟩ <;> rw [he] at hmem <;>
        cases hmem
  | resolveAsync obj' task hphase =>
      unfold resolveAsync at hmem hallows
      split at hmem
      · rename_i v hcontainment hnormalized
        simp only [hcontainment, hnormalized] at hallows
        cases task <;> exact hallows
      · simp only [List.mem_singleton] at hmem
        rw [hmem] at halmost
        cases halmost
  | runSelf obj' task res hphase hres =>
      cases res with
      | error exn =>
          have := errorStatuses_quiet exn st hmem
          simp [halmost] at this
      | ok vs =>
          simp only [runSelf, List.mem_singleton] at hmem
          rw [hmem] at halmost
          cases halmost
  | throws obj' task exn hphase hcancelled =>
      have := errorStatuses_quiet exn st hmem
      simp [halmost] at this
  | cancelDelegate =>
      simp only [List.mem_singleton] at hmem
      rw [hmem] at halmost
      cases halmost
  | leave obj' task v result hphase hresult =>
      have he := returned_of_reports h hok hphase
      dsimp only at he
      rw [he] at hallows
      cases task <;> exact hallows
  | finishCached obj' n result hphase houtcome =>
      cases result with
      | ok v => exact hallows
      | error exn => cases hmem
  | _ => cases hmem

/-! ## The other coroutines -/

/-- A step changes nothing about the tasks of the others. -/
theorem thrown_of_move {t' : ℕ} {p' : Position} (h : Move env s t p e cache)
    (htracks : Tracks s.cache t p ((s.resolution t).activity p).phase)
    (hne : ¬ (t' = t ∧ p' = p)) {n : ℕ} (hn : cache.Owns t' p' n) :
    s.cache.Owns t' p' n ∧ (cache.tasks n).thrown = (s.cache.tasks n).thrown := by
  have hold : s.cache.Owns t' p' n := by
    rcases owns_of_move h with ⟨-, howns⟩ | ⟨-, howns⟩
    · exact (howns t' p' n).mp hn
    · exact ((howns t' p' n).mp hn).resolve_right fun hnew => hne hnew.2
  refine ⟨hold, ?_⟩
  cases h with
  | join obj' cache hphase hcache =>
      rcases acquire_cases hcache with ⟨-, -, htasks⟩ | ⟨hnone, -⟩
      · rw [htasks]
      · cases hnone
  | create obj' cache m phase hphase hcache hnext =>
      rcases acquire_cases hcache with ⟨hsome, -⟩ | ⟨-, -, htasks⟩
      · cases hsome
      · rw [htasks, Function.update_of_ne hold.1.ne]
  | record obj' m result result' hphase hresult =>
      rw [hphase] at htracks
      obtain ⟨-, htree, hposition⟩ := htracks.runs m rfl
      have hnm : n ≠ m := by
        rintro rfl
        exact hne ⟨hold.2.1.symm.trans htree, hold.2.2.symm.trans hposition⟩
      simp only [MemoryCache.record, Function.update_of_ne hnm]
  | finishCached obj' m result hphase houtcome => rfl
  | _ => rfl

theorem told_other {t' : ℕ} {p' : Position} {x : Resolution T F V} (h : Move env s t p e cache)
    (htracks : Tracks s.cache t p ((s.resolution t).activity p).phase)
    (hne : ¬ (t' = t ∧ p' = p)) (htold : Told what s.cache t' x errmsg p') :
    Told what cache t' x errmsg p' := by
  refine ⟨htold.shows, fun hpointed n exn hn hexn => ?_⟩
  obtain ⟨hold, hthrown⟩ := thrown_of_move h htracks hne hn
  exact htold.failures hpointed n exn hold (hthrown ▸ hexn)

omit [DecidableEq T] [DecidableEq K] in
/-- The other coroutines of the same resolution. -/
theorem told_proceed {c : Position} {x : Resolution T F V} (hc : c ≠ p) (hordered : Ordered x)
    (hsits : Sits x p obj) (he : e.Proper x p obj)
    (hcalm : (∃ st ∈ e.statuses, st.almostFinished = true) →
      ∀ i, (x.activity (p ++ [i])).phase.calm = true)
    (htold : Told what cache t x errmsg c) :
    Told what cache t (x.proceed p e) (e.storeErrmsg what p errmsg) c := by
  have husing := x.proceed_usingResult (p := p) e
  have herrmsg : e.storeErrmsg what p errmsg c = errmsg c := storeErrmsg_of_ne e hc
  rcases created_of_proceed he hc with hsame | ⟨as, i, -, -, hentered⟩
  · rcases x.proceed_status_below e hsits.ctx hc with hstatus | ⟨⟨d, rfl⟩, hst, hfinished⟩
    · constructor
      · intro r hr
        rw [hsame] at hr
        exact shows_of_same (htold.shows r hr) hstatus husing herrmsg
      · intro hpointed n exn hn hexn
        rw [hsame] at hpointed
        exact shows_of_same (htold.failures hpointed n exn hn hexn) hstatus husing herrmsg
    · -- the context has got finished, and its request has no failure to show
      have hd : d ≠ [] := by
        rintro rfl
        simp at hc
      have hquiet := calm_below hordered (hcalm hst) hd
      constructor
      · intro r hr
        rw [hsame] at hr
        cases hphase : (x.activity (p ++ d)).phase with
        | idle =>
            rw [hphase] at hr
            cases hr
        | done v =>
            rw [hphase] at hr
            obtain rfl := Option.some.inj hr
            simp [Resolution.Shows, hfinished, hd]
        | _ =>
            rw [hphase] at hquiet
            cases hquiet
      · intro hpointed
        rw [hsame] at hpointed
        cases hphase : (x.activity (p ++ d)).phase <;>
          simp_all [Phase.calm, Phase.pointed]
  · exact told_of_quiet (by rw [hentered]; rfl) (by rw [hentered]; rfl)

end

/-! ## Runs -/

/-- Every context shows what it has to. -/
structure Faithful (env : Env T F V K) (what : Exn → String) (o : Observed T F V K) : Prop where
  placed : AllPlaced env o.system
  flat : ∀ t p, ((o.system.resolution t).activity p).phase ≠ .idle →
    env.supportCaching = true → ValueBasedFlat (o.system.resolution t).request
  ordered : ∀ t, Ordered (o.system.resolution t)
  tracked : Tracked o.system
  told : ∀ t p, Told what o.system.cache t (o.system.resolution t) (o.errmsg t) p

section
variable {env : Env T F V K} {what : Exn → String} {o : Observed T F V K}

theorem faithful_initial (r : FunctionRequest T F V) :
    Faithful env what (Observed.initial r : Observed T F V K) where
  placed := allPlaced_initial r
  flat := fun _ _ hp => absurd rfl hp
  ordered := fun _ _ _ => rfl
  tracked := tracked_initial r
  told := fun _ _ => told_of_quiet rfl rfl

theorem Faithful.outcomesShown (h : Faithful env what o) : o.OutcomesShown what := by
  intro t p result hresult
  apply (h.told t p).shows
  cases hphase : ((o.system.resolution t).activity p).phase <;>
    simp_all [Phase.outcome, Phase.verdict]

/-- A new resolution has nothing to show. -/
theorem faithful_resolve (h : Faithful env what o) {x : Resolution T F V}
    (hroot : (x.activity []).phase = .entered)
    (hbelow : ∀ p, p ≠ [] → (x.activity p).phase = .idle)
    (hflat : env.supportCaching = true → ValueBasedFlat x.request) {s' : System T F V K}
    (hs : s' = { o.system with
      resolution := Function.update o.system.resolution o.system.numResolutions x
      numResolutions := o.system.numResolutions + 1 })
    (hplaced : AllPlaced env s') : Faithful env what ⟨s', o.errmsg⟩ := by
  have hx : ∀ p, (x.activity p).phase = .idle ∨ (x.activity p).phase = .entered := by
    intro p
    by_cases hp : p = []
    · exact .inr (hp ▸ hroot)
    · exact .inl (hbelow p hp)
  refine ⟨hplaced, fun t p hp hcaching => ?_, fun t => ?_, ?_, fun t p => ?_⟩
  · subst hs
    by_cases ht : t = o.system.numResolutions
    · subst ht
      simp only [Function.update_self]
      exact hflat hcaching
    · simp only [Function.update_of_ne ht] at hp ⊢
      exact h.flat t p hp hcaching
  · subst hs
    by_cases ht : t = o.system.numResolutions
    · subst ht
      simp only [Function.update_self]
      exact ordered_of_root hroot hbelow
    · simp only [Function.update_of_ne ht]
      exact h.ordered t
  · subst hs
    exact tracked_resolve h.tracked hx
  · subst hs
    by_cases ht : t = o.system.numResolutions
    · subst ht
      simp only [Function.update_self]
      rcases hx p with hp | hp
      · exact told_of_quiet (by rw [hp]; rfl) (by rw [hp]; rfl)
      · exact told_of_quiet (by rw [hp]; rfl) (by rw [hp]; rfl)
    · simp only [Function.update_of_ne ht]
      exact h.told t p

/-- Cancelling shows nowhere. -/
theorem faithful_cancel (h : Faithful env what o) (t₁ : ℕ) {s' : System T F V K}
    (hs : s' = { o.system with
      resolution := Function.update o.system.resolution t₁
        { o.system.resolution t₁ with cancelled := true } })
    (hplaced : AllPlaced env s') : Faithful env what ⟨s', o.errmsg⟩ := by
  have hsame : ∀ t, (s'.resolution t).activity = (o.system.resolution t).activity
      ∧ (s'.resolution t).request = (o.system.resolution t).request
      ∧ (s'.resolution t).status = (o.system.resolution t).status
      ∧ (s'.resolution t).usingResult = (o.system.resolution t).usingResult := by
    intro t
    subst hs
    by_cases ht : t = t₁
    · subst ht
      simp
    · simp [Function.update_of_ne ht]
  have hcache : s'.cache = o.system.cache := by rw [hs]
  have hnum : s'.numResolutions = o.system.numResolutions := by rw [hs]
  refine ⟨hplaced, fun t p => ?_, fun t p i => ?_, ⟨fun t p => ?_, ?_, fun t p => ?_⟩,
    fun t p => ?_⟩
  · rw [(hsame t).1, (hsame t).2.1]
    exact h.flat t p
  · rw [(hsame t).1]
    exact h.ordered t p i
  · rw [(hsame t).1, hcache]
    exact h.tracked.phases t p
  · rw [hcache, hnum]
    exact h.tracked.trees
  · rw [(hsame t).1, hnum]
    exact h.tracked.started t p
  · obtain ⟨hactivity, -, hstatus, husing⟩ := hsame t
    have htold := h.told t p
    constructor
    · intro r hr
      rw [hactivity] at hr
      exact shows_of_same (htold.shows r hr) (by rw [hstatus]) husing rfl
    · intro hpointed n e hn he
      rw [hactivity] at hpointed
      rw [hcache] at hn he
      exact shows_of_same (htold.failures hpointed n e hn he) (by rw [hstatus]) husing rfl

end

section
variable [DecidableEq T] [DecidableEq K] {env : Env T F V K} {what : Exn → String}
  {o o' : Observed T F V K}

theorem faithful_advance {t : ℕ} {p : Position} {input : Input V} {e : Effect T F V}
    {cache : MemoryCache K V} (h : Faithful env what o)
    (heffect : o.system.effect env t p input = some (e, cache))
    (hok : o.system.reports env (.advance t p input) = true) {s' : System T F V K}
    (hs : s' = { o.system with
      resolution := Function.update o.system.resolution t ((o.system.resolution t).apply p e)
      cache })
    (hplaced' : AllPlaced env s') :
    Faithful env what ⟨s', Function.update o.errmsg t
      (e.storeErrmsg what ((o.system.resolution t).activity p).ctx (o.errmsg t))⟩ := by
  have hmove : Move env o.system t p e cache := effect_cases heffect
  have hactive := ne_idle_of_move hmove
  have hflat := h.flat t p hactive
  have hplaced := h.placed t hflat
  obtain ⟨obj, hsits⟩ := hplaced.sits p hactive
  have hproper := proper_advance hmove hplaced hsits hflat
  have hordered := h.ordered t
  have hretries := retries_of_reports heffect hok
  have htracks := h.tracked.phases t p
  rw [apply_eq_proceed hsits hproper] at hs
  subst hs
  rw [hsits.ctx]
  refine ⟨hplaced', fun t' p' hp hcaching => ?_, fun t' => ?_,
    tracked_advance h.tracked hmove hordered hproper hretries, fun t' p' => ?_⟩
  · by_cases ht : t' = t
    · subst ht
      simp only [Function.update_self, Resolution.proceed_request]
      exact hflat hcaching
    · simp only [Function.update_of_ne ht] at hp ⊢
      exact h.flat t' p' hp hcaching
  · by_cases ht : t' = t
    · subst ht
      simp only [Function.update_self]
      exact ordered_proceed hordered hproper (active_of_move hmove)
        (allows_of_reports heffect hok hordered hplaced hsits)
        fun as has => async_of_move hmove hordered has
    · simp only [Function.update_of_ne ht]
      exact h.ordered t'
  · by_cases ht : t' = t
    · subst ht
      simp only [Function.update_self]
      by_cases hp : p' = p
      · subst hp
        exact told_self heffect hok hsits htracks (h.told t' p')
      · have hother := told_other hmove htracks (fun hboth => hp hboth.2) (h.told t' p')
        exact told_proceed hp hordered hsits hproper
          (fun hst => calm_of_reports heffect hok hordered hplaced hsits hst) hother
    · simp only [Function.update_of_ne ht]
      exact told_other hmove htracks (fun hboth => ht hboth.1) (h.told t' p')

theorem step_faithful {event : Event T F V K} (h : Faithful env what o)
    (hstep : o.step env what event = some o') (hok : o.system.reports env event = true) :
    Faithful env what o' := by
  obtain ⟨s', hs', rfl⟩ := Option.map_eq_some_iff.mp hstep
  have hplaced := step_allPlaced hs' h.placed
  cases event with
  | resolve r usingResult =>
      have hflat : env.supportCaching = true → ValueBasedFlat r := by
        intro hcaching
        simpa [System.reports, hcaching] using hok
      simp only [System.step, Option.ite_none_right_eq_some, Option.some.injEq] at hs'
      refine faithful_resolve h ?_ ?_ ?_ hs'.2.symm hplaced
      · simp
      · intro p hp
        simp [Function.update_of_ne hp]
      · exact hflat
  | cancel t => exact faithful_cancel h t (Option.some.inj hs').symm hplaced
  | advance t p input =>
      obtain ⟨⟨e, cache⟩, heffect, hs'⟩ := Option.map_eq_some_iff.mp hs'
      simp only [Observed.errmsgAfter, heffect]
      exact faithful_advance h heffect hok hs'.symm hplaced
  | evict key =>
      simp only [System.step, Option.bind_eq_some_iff, Option.ite_none_right_eq_some,
        Option.some.injEq] at hs'
      obtain ⟨r, -, -, rfl⟩ := hs'
      refine ⟨hplaced, h.flat, h.ordered, ⟨fun t p => ?_, h.tracked.trees, h.tracked.started⟩,
        fun t p => ?_⟩
      · exact tracks_of_owns (h.tracked.phases t p) fun _ => Iff.rfl
      · exact ⟨(h.told t p).shows, (h.told t p).failures⟩

/-- In a run whose steps report, the context of every request that has been resolved shows how. -/
theorem along_outcomesShown (env : Env T F V K) (what : Exn → String) (r : FunctionRequest T F V)
    (events : List (Event T F V K))
    (h : Transition.StepsMeet (Observed.step env what)
      (fun o event => o.system.reports env event = true) (.initial r) events) :
    Transition.Along (Observed.step env what) (Observed.OutcomesShown what) (.initial r) events :=
  Transition.along_of_stepsMeet (fun _ => Faithful.outcomesShown)
    (fun _ _ _ => step_faithful) (faithful_initial r) h

end

/-- The messages of some exceptions. -/
def messageOf : Exn → String
  | .uuidError what | .logicError what | .other what => what
  | .httpRequestFailure => ""

/-- A cached request is resolved, then got from the cache, and one throws. -/
def resolveAndThrow : List (Event Unit ℕ ℕ RequestUuid) :=
  resolveAgain ++ [.resolve (.call (propsOf .none) 2 none []) true] ++ goes 2 [] 3
    ++ [.advance 2 [] (.throws (.other (.other "no"))), .advance 2 [] .go]

theorem along_outcomesShown_resolveAndThrow :
    Transition.Along (Observed.step uuidEnv messageOf) (Observed.OutcomesShown messageOf)
      (.initial nested) resolveAndThrow :=
  along_outcomesShown uuidEnv messageOf nested resolveAndThrow (by decide +kernel)

/-- A contained request throws. -/
def throwContained : List (Event Unit ℕ ℕ RequestUuid) :=
  [.resolve (.call (propsOf .none) 0 (some ⟨{ base := "f".toList }, "", ""⟩) []) false]
    ++ goes 0 [] 3 ++ [.advance 0 [] (.throws (.other (.other "no"))), .advance 0 [] .go]

/-- A cached request throws while another resolution awaits its task. -/
def throwShared : List (Event Unit ℕ ℕ RequestUuid) :=
  [.resolve (cancellable .memory) false, .resolve (cancellable .memory) false]
    ++ goes 0 [] 2 ++ goes 1 [] 3 ++ goes 0 [] 2
    ++ [.advance 0 [] (.throws (.other (.other "no")))] ++ goes 0 [] 1 ++ goes 1 [] 2

/-- After the run the resolution has thrown, and its root context does not show it. -/
theorem not_along_of_run {events : List (Event Unit ℕ ℕ RequestUuid)} (t : ℕ) (exn : Exn)
    (st : AsyncStatus) (hst : st ≠ .failed)
    (hrun : (Transition.run (Observed.step uuidEnv messageOf) (.initial nested) events).map
      (fun o => (((o.system.resolution t).activity []).phase.outcome,
        (o.system.resolution t).status [])) = some (some (.error (.other exn)), st)) :
    ¬ Transition.Along (Observed.step uuidEnv messageOf) (Observed.OutcomesShown messageOf)
        (.initial nested) events := by
  intro h
  obtain ⟨o, ho, hpair⟩ := Option.map_eq_some_iff.mp hrun
  obtain ⟨houtcome, hstatus⟩ := Prod.mk.inj hpair
  have hshows := h.run ho t [] _ houtcome
  exact hst (hstatus.symm.trans hshows.1)

/-- One of the contexts stays at SELF_RUNNING, and the other at CREATED. -/
theorem not_along_outcomesShown :
    ¬ Transition.Along (Observed.step uuidEnv messageOf) (Observed.OutcomesShown messageOf)
        (.initial nested) throwContained
    ∧ ¬ Transition.Along (Observed.step uuidEnv messageOf) (Observed.OutcomesShown messageOf)
        (.initial nested) throwShared := by
  constructor
  · apply not_along_of_run 0 (.other "no") .selfRunning
    · decide
    · decide +kernel
  · apply not_along_of_run 1 (.other "no") .created
    · decide
    · decide +kernel

end Cradle.Async
