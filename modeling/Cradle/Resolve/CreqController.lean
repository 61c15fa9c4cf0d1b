import Cradle.Lib.Transition
import Cradle.Remote.ProxyContext

/-!
# Cancelling a contained resolution

`creq_controller::resolve` hands a request to a contained process.  It creates a
`creq_context`, makes it the delegate of the local context and registers a callback that
forwards a cancellation of the context tree to it.  The callback runs on the thread that
requests the cancellation, or inside `set_delegate` when the request came first; it reaches
the process through a flag, a weak pointer and the remote id, which `resolve` learns last.

The state below holds what the threads share.  An earlier resolution on the same local
context may have left its own registration behind (`stale`), whose callback looks at the
same delegate.
-/

namespace Cradle.Creq

open Remote (noAsyncId)

/-- The registrations whose callbacks run `cancel_delegate`: that of an earlier resolution on
the same context, and the one that this `set_delegate` creates. -/
inductive Registration
  | stale
  | own
  deriving DecidableEq, Repr

/-- How far `cancel_delegate` came for a registration. -/
inductive Callback
  /-- Not registered, or deregistered. -/
  | absent
  /-- In the list of the cancellation state. -/
  | waiting
  /-- Called, about to lock the weak pointer. -/
  | invoked
  /-- Owns a reference to the delegate of an earlier resolution. -/
  | elsewhere
  /-- Owns a reference to the `creq_context`. -/
  | locked
  /-- Inside `request_cancellation_coro`, `cancelled_` is set. -/
  | flagged
  | done
  /-- The weak pointer had expired. -/
  | missed
  deriving DecidableEq, Repr

namespace Callback

/-- The callback is on some thread's stack. -/
def Running (c : Callback) : Prop := c = invoked ∨ c = elsewhere ∨ c = locked ∨ c = flagged

/-- The callback keeps the `creq_context` alive. -/
def Holds (c : Callback) : Prop := c = locked ∨ c = flagged

/-- The callback set `cancelled_`. -/
def Cancels (c : Callback) : Prop := c = flagged ∨ c = done

instance (c : Callback) : Decidable c.Running :=
  inferInstanceAs (Decidable (c = invoked ∨ c = elsewhere ∨ c = locked ∨ c = flagged))

instance (c : Callback) : Decidable c.Holds :=
  inferInstanceAs (Decidable (c = locked ∨ c = flagged))

/-- Steps the callback can still take, or may be spared. -/
def rank : Callback → ℕ
  | waiting => 4
  | invoked => 3
  | elsewhere | locked => 2
  | flagged => 1
  | _ => 0

end Callback

/-- Where `creq_controller::resolve` stands; the phases from `submitted` on carry the id that
`submit_async` returned. -/
inductive Phase
  | start
  | created
  /-- `delegate_` points to the new `creq_context`. -/
  | assigned
  /-- The constructor of the registration runs the callback itself. -/
  | notifying
  | registered
  | delegated
  | checked
  | loaded
  | submitted (id : ℕ)
  /-- Inside `set_remote_id`, `remote_id_` is set. -/
  | storing (id : ℕ)
  | polling (id : ℕ)
  /-- `resolve` returned or threw after the submission, and its controller is destroyed. -/
  | exited (id : ℕ)
  /-- `throw_if_cancelled` threw `async_cancelled`. -/
  | cancelled
  /-- `set_delegate` threw `std::logic_error`. -/
  | rejected
  deriving DecidableEq, Repr

namespace Phase

/-- The controller owns a `creq_context` to which `delegate_` points. -/
def holds : Phase → Bool
  | assigned | notifying | registered | delegated | checked | loaded
  | submitted _ | storing _ | polling _ => true
  | _ => false

/-- `set_delegate` assigned `delegate_`. -/
def hasDelegate : Phase → Bool
  | start | created | rejected => false
  | _ => true

/-- The new registration exists. -/
def hasRegistered : Phase → Bool
  | start | created | rejected | assigned => false
  | _ => true

/-- `set_delegate` returned, the registration of the earlier resolution is gone. -/
def hasReturned : Phase → Bool
  | start | created | rejected | assigned | notifying | registered => false
  | _ => true

/-- The id of the submission. -/
def remoteId? : Phase → Option ℕ
  | submitted id | storing id | polling id | exited id => some id
  | _ => none

/-- What `remote_id_` holds in this phase. -/
def storedId : Phase → ℕ
  | storing id | polling id | exited id => id
  | _ => noAsyncId

/-- `resolve` returned or threw. -/
def ended : Phase → Bool
  | exited _ | cancelled | rejected => true
  | _ => false

/-- Steps that `resolve` still takes at most. -/
def rank : Phase → ℕ
  | start => 11
  | created => 10
  | assigned => 9
  | notifying => 8
  | registered => 7
  | delegated => 6
  | checked => 5
  | loaded => 4
  | submitted _ => 3
  | storing _ => 2
  | polling _ => 1
  | exited _ | cancelled | rejected => 0

end Phase

/-- The calls on the proxy of the contained process. -/
inductive ProxyCall
  | loadSharedLibrary
  | submitAsync (id : ℕ)
  | requestCancellation (id : ℕ)
  deriving DecidableEq, Repr

/-- Who owns the mutex of the `creq_context`. -/
inductive Party
  | resolver
  | callback (r : Registration)
  deriving DecidableEq, Repr

structure State where
  /-- Another resolution on the context keeps its delegate, to which `delegate_` refers. -/
  occupied : Bool
  /-- Cancellation was requested on the context tree. -/
  requested : Bool
  /-- Cancellation was requested before the remote resolution ended. -/
  inTime : Bool
  phase : Phase
  callback : Registration → Callback
  mutex : Option Party
  cancelled : Bool
  remoteId : ℕ
  /-- The remote resolution is finished, cancelled or failed. -/
  remoteEnded : Bool
  calls : List ProxyCall

namespace State

/-- `delegate_.lock()` succeeds. -/
def existing (s : State) : Bool :=
  s.phase.holds || decide (s.callback .stale).Holds || decide (s.callback .own).Holds

/-- As long as `set_delegate` did not replace it, `delegate_` may refer to the delegate of
another resolution. -/
def existingElsewhere (s : State) : Bool :=
  s.occupied || decide (s.callback .stale = .elsewhere)

theorem existing_iff (s : State) :
    s.existing = true ↔
      s.phase.holds = true ∨ (s.callback .stale).Holds ∨ (s.callback .own).Holds := by
  simp [existing, or_assoc]

def setCallback (s : State) (r : Registration) (c : Callback) : State :=
  { s with callback := Function.update s.callback r c }

section
variable (s : State) (r : Registration) (c : Callback)

theorem setCallback_callback (r' : Registration) :
    (s.setCallback r c).callback r' = if r' = r then c else s.callback r' :=
  Function.update_apply _ _ _ _

/-- What does not tell the old and the new callback apart is kept. -/
theorem setCallback_iff (P : Callback → Prop) (h : P c ↔ P (s.callback r)) (r' : Registration) :
    P ((s.setCallback r c).callback r') ↔ P (s.callback r') := by
  rw [setCallback_callback]
  split
  · rename_i hr
    rw [hr]
    exact h
  · exact Iff.rfl

@[simp] theorem setCallback_phase : (s.setCallback r c).phase = s.phase := rfl

end

/-- The next step of `creq_controller::resolve`; `id` is what `submit_async` returns if that
is the step. -/
def resolverStep (s : State) (id : ℕ) : Option State :=
  match s.phase with
  | .start => some { s with phase := .created }
  | .created => some { s with phase := if s.existingElsewhere then .rejected else .assigned }
  | .assigned =>
      -- the registration runs its callback at once if cancellation was requested before
      if s.requested then some { s.setCallback .own .invoked with phase := .notifying }
      else some { s.setCallback .own .waiting with phase := .registered }
  | .notifying =>
      if (s.callback .own).Running then none else some { s with phase := .registered }
  | .registered =>
      -- the earlier registration is destroyed, which waits for its running callback
      if (s.callback .stale).Running then none
      else some
        { s.setCallback .stale
            (if s.callback .stale = .waiting then .absent else s.callback .stale) with
          phase := .delegated }
  | .delegated => some { s with phase := if s.cancelled then .cancelled else .checked }
  | .checked => some { s with phase := .loaded, calls := s.calls ++ [.loadSharedLibrary] }
  | .loaded =>
      if id = noAsyncId then none
      else some { s with phase := .submitted id, calls := s.calls ++ [.submitAsync id] }
  | .submitted id =>
      if s.mutex = none then
        some { s with phase := .storing id, mutex := some .resolver, remoteId := id }
      else none
  | .storing id =>
      some { s with
        phase := .polling id, mutex := none,
        calls := if s.cancelled then s.calls ++ [.requestCancellation id] else s.calls }
  | .polling id => if s.remoteEnded then some { s with phase := .exited id } else none
  | .exited _ | .cancelled | .rejected => none

/-- The next step of `cancel_delegate`, called for the registration `r`. -/
def callbackStep (s : State) (r : Registration) : Option State :=
  match s.callback r with
  | .waiting => if s.requested then some (s.setCallback r .invoked) else none
  | .invoked =>
      some (s.setCallback r
        (if s.existing then .locked
          else if s.phase.hasDelegate = false ∧ s.existingElsewhere then .elsewhere
          else .missed))
  | .elsewhere => some (s.setCallback r .missed)
  | .locked =>
      if s.mutex = none then
        some { s.setCallback r .flagged with mutex := some (.callback r), cancelled := true }
      else none
  | .flagged =>
      some { s.setCallback r .done with
        mutex := none,
        calls := if s.remoteId ≠ noAsyncId then s.calls ++ [.requestCancellation s.remoteId]
          else s.calls }
  | .absent | .done | .missed => none

end State

inductive Event
  | resolver (id : ℕ)
  | callback (r : Registration)
  /-- The resolution in the contained process ends. -/
  | remoteEnds
  /-- Another resolution on the context ends. -/
  | otherEnds
  /-- Somebody requests cancellation on the context tree. -/
  | request
  deriving DecidableEq, Repr

def State.step (s : State) : Event → Option State
  | .resolver id => s.resolverStep id
  | .callback r => s.callbackStep r
  | .remoteEnds =>
      if s.phase.remoteId?.isSome ∧ ¬ s.remoteEnded then some { s with remoteEnded := true }
      else none
  | .otherEnds => if s.occupied then some { s with occupied := false } else none
  | .request =>
      some { s with
        requested := true
        inTime := s.inTime || (!s.requested && !s.remoteEnded) }

/-- `resolve` was not called yet.  The context may have the live delegate of another
resolution, and a registration left by an earlier one, with its callback at any point. -/
def initial : Set State :=
  {s | s.phase = .start ∧ s.callback .own = .absent
    ∧ ¬ (s.callback .stale).Holds ∧ ¬ (s.callback .stale).Cancels
    ∧ s.inTime = s.requested
    ∧ s.mutex = none ∧ s.cancelled = false ∧ s.remoteId = noAsyncId ∧ s.remoteEnded = false
    ∧ s.calls = []}

/-- The states of all interleavings. -/
def Reaches : State → Prop :=
  Transition.Reachable State.step (fun _ _ => True) initial

/-- `resolve` is over, and so is the callback if cancellation was requested. -/
def State.Settled (s : State) : Prop :=
  s.phase.ended = true ∧
    (s.requested = true → s.callback .own ≠ .waiting ∧ ¬ (s.callback .own).Running)

/-! ## The invariant -/

/-- What the threads can rely on in every reachable state. -/
structure State.Inv (s : State) : Prop where
  mutexCallback : ∀ r, s.mutex = some (.callback r) ↔ s.callback r = .flagged
  mutexResolver : s.mutex = some .resolver ↔ ∃ id, s.phase = .storing id
  cancelled : s.cancelled = true ↔ ∃ r, (s.callback r).Cancels
  remoteId : s.remoteId = s.phase.storedId
  validId : ∀ id, s.phase.remoteId? = some id → id ≠ noAsyncId
  submitted : ∀ id, .submitAsync id ∈ s.calls ↔ s.phase.remoteId? = some id
  exactId : ∀ id, .requestCancellation id ∈ s.calls → s.remoteId = id ∧ id ≠ noAsyncId
  absentOwn : s.callback .own = .absent ↔ s.phase.hasRegistered = false
  staleGone : s.phase.hasReturned = true → s.callback .stale ≠ .waiting
    ∧ ¬ (s.callback .stale).Running
  ownHere : s.callback .own ≠ .elsewhere
  ownMissed : s.callback .own = .missed → s.phase = .cancelled ∨ ∃ id, s.phase = .exited id
  early : s.phase.hasDelegate = false → ∀ r, ¬ (s.callback r).Holds
    ∧ ¬ (s.callback r).Cancels
  ended : ∀ id, s.phase = .exited id → s.remoteEnded = true
  forwarded : ∀ r id, s.callback r = .done → s.phase = .polling id ∨ s.phase = .exited id →
    .requestCancellation id ∈ s.calls

namespace Phase

theorem hasDelegate_of_holds {p : Phase} (h : p.holds = true) : p.hasDelegate = true := by
  cases p <;> simp_all [holds, hasDelegate]

theorem hasDelegate_of_hasRegistered {p : Phase} (h : p.hasRegistered = true) :
    p.hasDelegate = true := by
  cases p <;> simp_all [hasRegistered, hasDelegate]

theorem storedId_of_remoteId? {p : Phase} (h : p.remoteId? = none) : p.storedId = noAsyncId := by
  cases p <;> simp_all [remoteId?, storedId]

/-- Once the registration exists, the delegate only disappears with the end of `resolve`. -/
theorem eq_of_not_holds {p : Phase} (hreg : p.hasRegistered = true) (h : p.holds = false) :
    p = .cancelled ∨ ∃ id, p = .exited id := by
  cases p <;> simp_all [hasRegistered, holds]

end Phase

/-- What a step of `creq_controller::resolve` does. -/
inductive ResolverStep (s : State) : State → Prop
  | create (hp : s.phase = .start) : ResolverStep s { s with phase := .created }
  | reject (hp : s.phase = .created) : ResolverStep s { s with phase := .rejected }
  | assign (hp : s.phase = .created) : ResolverStep s { s with phase := .assigned }
  | notify (hp : s.phase = .assigned) :
      ResolverStep s { s.setCallback .own .invoked with phase := .notifying }
  | register (hp : s.phase = .assigned) :
      ResolverStep s { s.setCallback .own .waiting with phase := .registered }
  | notified (hp : s.phase = .notifying) : ResolverStep s { s with phase := .registered }
  | deregister (hp : s.phase = .registered) (hrun : ¬ (s.callback .stale).Running) :
      ResolverStep s
        { s.setCallback .stale
            (if s.callback .stale = .waiting then .absent else s.callback .stale) with
          phase := .delegated }
  | giveUp (hp : s.phase = .delegated) : ResolverStep s { s with phase := .cancelled }
  | check (hp : s.phase = .delegated) : ResolverStep s { s with phase := .checked }
  | load (hp : s.phase = .checked) :
      ResolverStep s { s with phase := .loaded, calls := s.calls ++ [.loadSharedLibrary] }
  | submit (id : ℕ) (hp : s.phase = .loaded) (hid : id ≠ noAsyncId) :
      ResolverStep s { s with phase := .submitted id, calls := s.calls ++ [.submitAsync id] }
  | store (id : ℕ) (hp : s.phase = .submitted id) (hm : s.mutex = none) :
      ResolverStep s { s with phase := .storing id, mutex := some .resolver, remoteId := id }
  | poll (id : ℕ) (hp : s.phase = .storing id) (calls : List ProxyCall)
      (hcalls : calls = if s.cancelled then s.calls ++ [.requestCancellation id] else s.calls) :
      ResolverStep s { s with phase := .polling id, mutex := none, calls }
  | finish (id : ℕ) (hp : s.phase = .polling id) (he : s.remoteEnded = true) :
      ResolverStep s { s with phase := .exited id }

theorem resolverStep_cases {s s' : State} {id : ℕ} (h : s.resolverStep id = some s') :
    ResolverStep s s' := by
  cases hp : s.phase with
  | start =>
      simp only [State.resolverStep, hp] at h
      obtain rfl := Option.some.inj h
      exact .create hp
  | created =>
      simp only [State.resolverStep, hp] at h
      obtain rfl := Option.some.inj h
      split
      · exact .reject hp
      · exact .assign hp
  | assigned =>
      simp only [State.resolverStep, hp] at h
      split at h
      · obtain rfl := Option.some.inj h
        exact .notify hp
      · obtain rfl := Option.some.inj h
        exact .register hp
  | notifying =>
      simp only [State.resolverStep, hp] at h
      split at h
      · cases h
      · obtain rfl := Option.some.inj h
        exact .notified hp
  | registered =>
      simp only [State.resolverStep, hp] at h
      split at h
      · cases h
      · rename_i hrun
        obtain rfl := Option.some.inj h
        exact .deregister hp hrun
  | delegated =>
      simp only [State.resolverStep, hp] at h
      obtain rfl := Option.some.inj h
      split
      · exact .giveUp hp
      · exact .check hp
  | checked =>
      simp only [State.resolverStep, hp] at h
      obtain rfl := Option.some.inj h
      exact .load hp
  | loaded =>
      simp only [State.resolverStep, hp] at h
      split at h
      · cases h
      · rename_i hid
        obtain rfl := Option.some.inj h
        exact .submit id hp hid
  | submitted id =>
      simp only [State.resolverStep, hp] at h
      split at h
      · rename_i hm
        obtain rfl := Option.some.inj h
        exact .store id hp hm
      · cases h
  | storing id =>
      simp only [State.resolverStep, hp] at h
      obtain rfl := Option.some.inj h
      exact .poll id hp _ rfl
  | polling id =>
      simp only [State.resolverStep, hp] at h
      split at h
      · rename_i he
        obtain rfl := Option.some.inj h
        exact .finish id hp he
      · cases h
  | exited | cancelled | rejected => simp [State.resolverStep, hp] at h

/-- What a step of `cancel_delegate` does. -/
inductive CallbackStep (s : State) (r : Registration) : State → Prop
  | invoke (hc : s.callback r = .waiting) : CallbackStep s r (s.setCallback r .invoked)
  | lock (hc : s.callback r = .invoked) (he : s.existing = true) :
      CallbackStep s r (s.setCallback r .locked)
  | lockElsewhere (hc : s.callback r = .invoked) (hd : s.phase.hasDelegate = false) :
      CallbackStep s r (s.setCallback r .elsewhere)
  | miss (hc : s.callback r = .invoked) (he : s.existing = false) :
      CallbackStep s r (s.setCallback r .missed)
  | leave (hc : s.callback r = .elsewhere) : CallbackStep s r (s.setCallback r .missed)
  | flag (hc : s.callback r = .locked) (hm : s.mutex = none) :
      CallbackStep s r
        { s.setCallback r .flagged with mutex := some (.callback r), cancelled := true }
  | forward (hc : s.callback r = .flagged) (calls : List ProxyCall)
      (hcalls : calls = if s.remoteId ≠ noAsyncId
        then s.calls ++ [.requestCancellation s.remoteId] else s.calls) :
      CallbackStep s r { s.setCallback r .done with mutex := none, calls }

theorem callbackStep_cases {s s' : State} {r : Registration} (h : s.callbackStep r = some s') :
    CallbackStep s r s' := by
  cases hc : s.callback r with
  | waiting =>
      simp only [State.callbackStep, hc] at h
      split at h
      · obtain rfl := Option.some.inj h
        exact .invoke hc
      · cases h
  | invoked =>
      simp only [State.callbackStep, hc] at h
      obtain rfl := Option.some.inj h
      split
      · rename_i he
        exact .lock hc he
      · rename_i he
        split
        · rename_i hd
          exact .lockElsewhere hc hd.1
        · exact .miss hc (by simpa using he)
  | elsewhere =>
      simp only [State.callbackStep, hc] at h
      obtain rfl := Option.some.inj h
      exact .leave hc
  | locked =>
      simp only [State.callbackStep, hc] at h
      split at h
      · rename_i hm
        obtain rfl := Option.some.inj h
        exact .flag hc hm
      · cases h
  | flagged =>
      simp only [State.callbackStep, hc] at h
      obtain rfl := Option.some.inj h
      exact .forward hc _ rfl
  | absent | done | missed => simp [State.callbackStep, hc] at h

theorem inv_initial {s : State} (h : s ∈ initial) : s.Inv := by
  obtain ⟨hp, hown, hholds, hcancels, -, hmutex, hc, hid, -, hcalls⟩ := h
  have hquiet : ∀ r, ¬ (s.callback r).Holds ∧ ¬ (s.callback r).Cancels := by
    intro r
    cases r with
    | stale => exact ⟨hholds, hcancels⟩
    | own => simp [hown, Callback.Holds, Callback.Cancels]
  constructor
  case mutexCallback =>
    intro r
    exact iff_of_false (by simp [hmutex]) fun hf => (hquiet r).1 (.inr hf)
  case cancelled =>
    exact iff_of_false (by simp [hc]) fun ⟨r, hr⟩ => (hquiet r).2 hr
  case early => exact fun _ => hquiet
  case forwarded =>
    intro r id hdone
    exact absurd (.inr hdone) (hquiet r).2
  all_goals simp [hp, hown, hmutex, hid, hcalls, Phase.storedId, Phase.remoteId?,
    Phase.hasRegistered, Phase.hasReturned]

/-- After `set_remote_id` the callback sees the id of the submission. -/
theorem State.Inv.stored_of_polled {s : State} (hi : s.Inv) (id : ℕ)
    (h : s.phase = .polling id ∨ s.phase = .exited id) : s.remoteId = id ∧ id ≠ noAsyncId := by
  have hid : s.phase.storedId = id ∧ s.phase.remoteId? = some id := by
    rcases h with h | h <;> rw [h] <;> exact ⟨rfl, rfl⟩
  exact ⟨hi.remoteId.trans hid.1, hi.validId id hid.2⟩

section
variable {s : State}

/-! ### The steps of `resolve` -/

/-- Before the submission nothing but the registrations matters. -/
theorem inv_unsubmitted (hi : s.Inv) (p : Phase) (f : Registration → Callback)
    (hs : s.phase.remoteId? = none) (hp : p.remoteId? = none)
    (hflagged : ∀ r, f r = .flagged ↔ s.callback r = .flagged)
    (hcancels : ∀ r, (f r).Cancels ↔ (s.callback r).Cancels)
    (habsent : f .own = .absent ↔ p.hasRegistered = false)
    (hstale : p.hasReturned = true → f .stale ≠ .waiting ∧ ¬ (f .stale).Running)
    (hown : f .own ≠ .elsewhere ∧ f .own ≠ .missed)
    (hearly : p.hasDelegate = false → ∀ r, ¬ (f r).Holds ∧ ¬ (f r).Cancels) :
    { s with phase := p, callback := f }.Inv :=
  { hi with
    mutexCallback := fun r => (hi.mutexCallback r).trans (hflagged r).symm
    mutexResolver := by
      refine iff_of_false (fun hm => ?_) ?_
      · obtain ⟨id, hid⟩ := hi.mutexResolver.mp hm
        simp [hid, Phase.remoteId?] at hs
      · rintro ⟨id, rfl⟩
        simp [Phase.remoteId?] at hp
    cancelled := hi.cancelled.trans (exists_congr fun r => (hcancels r).symm)
    remoteId := by
      rw [hi.remoteId, Phase.storedId_of_remoteId? hs, Phase.storedId_of_remoteId? hp]
    validId := fun id hid => by simp [hp] at hid
    submitted := fun id => by
      rw [hi.submitted, hs, hp]
    absentOwn := habsent
    staleGone := hstale
    ownHere := hown.1
    ownMissed := fun hmissed => absurd hmissed hown.2
    early := hearly
    ended := fun id h => by
      subst h
      simp [Phase.remoteId?] at hp
    forwarded := fun r id _ h => by
      rcases h with rfl | rfl <;> simp [Phase.remoteId?] at hp }

/-- As long as `resolve` has not ended, its callback finds the delegate. -/
theorem own_ne_missed (hi : s.Inv) (hp : s.phase.ended = false) : s.callback .own ≠ .missed := by
  intro hmissed
  rcases hi.ownMissed hmissed with h | ⟨id, h⟩ <;> simp [h, Phase.ended] at hp

/-- Before the submission `resolve` moves on. -/
theorem inv_setPhase (hi : s.Inv) (p : Phase) (hs : s.phase.remoteId? = none)
    (he : s.phase.ended = false) (hp : p.remoteId? = none)
    (hreg : p.hasRegistered = s.phase.hasRegistered)
    (hret : p.hasReturned = s.phase.hasReturned)
    (hdel : s.phase.hasDelegate = true → p.hasDelegate = true) : { s with phase := p }.Inv := by
  refine inv_unsubmitted hi p s.callback hs hp (fun _ => Iff.rfl) (fun _ => Iff.rfl) ?_ ?_
    ⟨hi.ownHere, own_ne_missed hi he⟩ ?_
  · rw [hi.absentOwn, hreg]
  · rw [hret]
    exact hi.staleGone
  · intro h
    exact hi.early (Bool.eq_false_iff.mpr fun hd => by simp [hdel hd] at h)

/-- The registration is created, and may run its callback at once. -/
theorem inv_register (hi : s.Inv) (hp : s.phase = .assigned) {c : Callback}
    (hc : c = .invoked ∨ c = .waiting) {p : Phase} (hp' : p = .notifying ∨ p = .registered) :
    { s.setCallback .own c with phase := p }.Inv := by
  have habsent : s.callback .own = .absent := hi.absentOwn.mpr (by rw [hp]; rfl)
  have hcancels : c.Cancels ↔ (s.callback .own).Cancels := by
    rcases hc with rfl | rfl <;> simp [habsent, Callback.Cancels]
  have hflagged : c = .flagged ↔ s.callback .own = .flagged := by
    rcases hc with rfl | rfl <;> simp [habsent]
  have hown : (s.setCallback .own c).callback .own = c := by
    rw [State.setCallback_callback, if_pos rfl]
  refine inv_unsubmitted hi p _ (by rw [hp]; rfl) ?_
    (s.setCallback_iff .own c (· = .flagged) hflagged)
    (s.setCallback_iff .own c Callback.Cancels hcancels) ?_ ?_ ?_ ?_
  · rcases hp' with rfl | rfl <;> rfl
  · rw [hown]
    rcases hc with rfl | rfl <;> rcases hp' with rfl | rfl <;> simp [Phase.hasRegistered]
  · rcases hp' with rfl | rfl <;> simp [Phase.hasReturned]
  · rw [hown]
    rcases hc with rfl | rfl <;> simp
  · rcases hp' with rfl | rfl <;> simp [Phase.hasDelegate]

/-- The registration of the earlier resolution is gone when `set_delegate` returns. -/
theorem inv_deregister (hi : s.Inv) (hp : s.phase = .registered)
    (hrun : ¬ (s.callback .stale).Running) :
    State.Inv { s.setCallback .stale
        (if s.callback .stale = .waiting then .absent else s.callback .stale) with
      phase := .delegated } := by
  have hown : ∀ c, (s.setCallback .stale c).callback .own = s.callback .own := fun c => by
    simp [State.setCallback_callback]
  refine inv_unsubmitted hi .delegated _ (by rw [hp]; rfl) rfl
    (s.setCallback_iff .stale _ (· = .flagged) ?_)
    (s.setCallback_iff .stale _ Callback.Cancels ?_) ?_ ?_ ?_ ?_
  · split <;> simp_all
  · split <;> simp_all [Callback.Cancels]
  · rw [hown, hi.absentOwn, hp]
    rfl
  · intro _
    rw [State.setCallback_callback, if_pos rfl]
    split
    · simp [Callback.Running]
    · rename_i hwaiting
      exact ⟨hwaiting, hrun⟩
  · rw [hown]
    exact ⟨hi.ownHere, own_ne_missed hi (by rw [hp]; rfl)⟩
  · simp [Phase.hasDelegate]

/-- `submit_async` returns an id, which no callback has seen before. -/
theorem inv_submit (hi : s.Inv) (hp : s.phase = .loaded) {id : ℕ} (hid : id ≠ noAsyncId) :
    State.Inv { s with phase := .submitted id, calls := s.calls ++ [.submitAsync id] } :=
  { hi with
    mutexResolver := by simpa [hp] using hi.mutexResolver
    remoteId := by simpa [hp, Phase.storedId] using hi.remoteId
    validId := fun id' h => by
      obtain rfl : id = id' := Option.some.inj h
      exact hid
    submitted := fun id' => by
      have hnone := hi.submitted id'
      simp only [hp, Phase.remoteId?, reduceCtorEq, iff_false] at hnone
      simp [hnone, Phase.remoteId?, eq_comm]
    exactId := fun id' h => hi.exactId id' (by simpa using h)
    absentOwn := by simpa [hp, Phase.hasRegistered] using hi.absentOwn
    staleGone := fun _ => hi.staleGone (by rw [hp]; rfl)
    ownMissed := fun h => (own_ne_missed hi (by rw [hp]; rfl) h).elim
    early := by simp [Phase.hasDelegate]
    ended := by simp
    forwarded := by simp }

theorem inv_store (hi : s.Inv) {id : ℕ} (hp : s.phase = .submitted id) (hm : s.mutex = none) :
    { s with phase := .storing id, mutex := some .resolver, remoteId := id }.Inv :=
  { hi with
    mutexCallback := fun r => by
      refine iff_of_false (by simp) fun hf => ?_
      have hr := (hi.mutexCallback r).mpr hf
      simp [hm] at hr
    mutexResolver := iff_of_true rfl ⟨id, rfl⟩
    remoteId := rfl
    validId := by simpa [hp, Phase.remoteId?] using hi.validId
    submitted := by simpa [hp, Phase.remoteId?] using hi.submitted
    exactId := fun id' h => by
      -- no callback has sent an id before this step
      have hsent := hi.exactId id' h
      have hnone := hi.remoteId
      simp only [hp, Phase.storedId] at hnone
      exact absurd (hsent.1.symm.trans hnone) hsent.2
    absentOwn := by simpa [hp, Phase.hasRegistered] using hi.absentOwn
    staleGone := fun _ => hi.staleGone (by rw [hp]; rfl)
    ownMissed := fun h => (own_ne_missed hi (by rw [hp]; rfl) h).elim
    early := by simp [Phase.hasDelegate]
    ended := by simp
    forwarded := by simp }

/-- A request to the contained process among the calls. -/
theorem mem_calls_iff {b : Prop} [Decidable b] {calls : List ProxyCall} {id : ℕ} {call : ProxyCall}
    (hcalls : calls = if b then s.calls ++ [.requestCancellation id] else s.calls) :
    call ∈ calls ↔ call ∈ s.calls ∨ b ∧ call = .requestCancellation id := by
  subst hcalls
  split <;> simp_all

theorem inv_poll (hi : s.Inv) {id : ℕ} (hp : s.phase = .storing id) {calls : List ProxyCall}
    (hcalls : calls = if s.cancelled then s.calls ++ [.requestCancellation id] else s.calls) :
    { s with phase := .polling id, mutex := none, calls }.Inv :=
  have hmem : ∀ call, call ∈ calls ↔
      call ∈ s.calls ∨ s.cancelled = true ∧ call = .requestCancellation id :=
    fun _ => mem_calls_iff hcalls
  have hid : s.remoteId = id := by rw [hi.remoteId, hp]; rfl
  { hi with
    mutexCallback := fun r => by
      refine iff_of_false (by simp) fun hf => ?_
      have hr := (hi.mutexCallback r).mpr hf
      have hresolver := hi.mutexResolver.mpr ⟨id, hp⟩
      simp [hr] at hresolver
    mutexResolver := by simp
    remoteId := hid
    validId := by simpa [hp, Phase.remoteId?] using hi.validId
    submitted := fun id' => by
      rw [hmem]
      simpa [hp, Phase.remoteId?] using hi.submitted id'
    exactId := fun id' h => by
      rcases (hmem _).mp h with h | ⟨-, h⟩
      · exact hi.exactId id' h
      · obtain rfl := ProxyCall.requestCancellation.inj h
        exact ⟨hid, hi.validId id' (by rw [hp]; rfl)⟩
    absentOwn := by simpa [hp, Phase.hasRegistered] using hi.absentOwn
    staleGone := fun _ => hi.staleGone (by rw [hp]; rfl)
    ownMissed := fun h => (own_ne_missed hi (by rw [hp]; rfl) h).elim
    early := by simp [Phase.hasDelegate]
    ended := by simp
    forwarded := fun r id' hdone h => by
      obtain rfl : id = id' := by simpa using h
      exact (hmem _).mpr (.inr ⟨hi.cancelled.mpr ⟨r, .inr hdone⟩, rfl⟩) }

theorem inv_finish (hi : s.Inv) {id : ℕ} (hp : s.phase = .polling id) (he : s.remoteEnded = true) :
    { s with phase := .exited id }.Inv :=
  { hi with
    mutexResolver := by simpa [hp] using hi.mutexResolver
    remoteId := by simpa [hp, Phase.storedId] using hi.remoteId
    validId := by simpa [hp, Phase.remoteId?] using hi.validId
    submitted := by simpa [hp, Phase.remoteId?] using hi.submitted
    absentOwn := by simpa [hp, Phase.hasRegistered] using hi.absentOwn
    staleGone := fun _ => hi.staleGone (by rw [hp]; rfl)
    ownMissed := fun _ => .inr ⟨id, rfl⟩
    early := by simp [Phase.hasDelegate]
    ended := fun _ _ => he
    forwarded := fun r id' hdone h => by
      obtain rfl : id = id' := by simpa using h
      exact hi.forwarded r id hdone (.inl hp) }

theorem resolverStep_inv {s' : State} (h : ResolverStep s s') (hi : s.Inv) : s'.Inv := by
  cases h with
  | create hp | reject hp | assign hp | notified hp | giveUp hp | check hp =>
      exact inv_setPhase hi _ (by rw [hp]; rfl) (by rw [hp]; rfl) rfl (by rw [hp]; rfl)
        (by rw [hp]; rfl) (by simp [hp, Phase.hasDelegate])
  | notify hp => exact inv_register hi hp (.inl rfl) (.inl rfl)
  | register hp => exact inv_register hi hp (.inr rfl) (.inr rfl)
  | deregister hp hrun => exact inv_deregister hi hp hrun
  | load hp =>
      have hmove : { s with phase := .loaded }.Inv :=
        inv_setPhase hi _ (by rw [hp]; rfl) (by rw [hp]; rfl) rfl (by rw [hp]; rfl)
          (by rw [hp]; rfl) (by simp [Phase.hasDelegate])
      exact
        { hmove with
          submitted := by simpa using hmove.submitted
          exactId := by simpa using hmove.exactId
          forwarded := by simp }
  | submit id hp hid => exact inv_submit hi hp hid
  | store id hp hm => exact inv_store hi hp hm
  | poll id hp calls hcalls => exact inv_poll hi hp hcalls
  | finish id hp he => exact inv_finish hi hp he

/-! ### The steps of `cancel_delegate` -/

/-- After the return of `set_delegate` only the new registration has a callback to run. -/
theorem staleGone_setCallback (hi : s.Inv) {r : Registration}
    (hrun : s.callback r = .waiting ∨ (s.callback r).Running) (c : Callback)
    (hret : s.phase.hasReturned = true) : (s.setCallback r c).callback .stale ≠ .waiting
      ∧ ¬ ((s.setCallback r c).callback .stale).Running := by
  obtain ⟨hwaiting, hrunning⟩ := hi.staleGone hret
  cases r with
  | stale => exact absurd hrun (not_or.mpr ⟨hwaiting, hrunning⟩)
  | own =>
      rw [State.setCallback_callback, if_neg (by simp)]
      exact ⟨hwaiting, hrunning⟩

/-- The callback moves on before it has set the flag. -/
theorem inv_setCallback (hi : s.Inv) {r : Registration} {c : Callback}
    (hrun : s.callback r = .waiting ∨ (s.callback r).Running) (hq : ¬ (s.callback r).Cancels)
    (hc : ¬ c.Cancels) (habsent : c ≠ .absent) (hhere : r = .own → c ≠ .elsewhere)
    (hmissed : r = .own → c = .missed → s.phase = .cancelled ∨ ∃ id, s.phase = .exited id)
    (hearly : s.phase.hasDelegate = false → ¬ c.Holds) : (s.setCallback r c).Inv :=
  have hne : s.callback r ≠ .absent := fun h => by simp [h, Callback.Running] at hrun
  { hi with
    mutexCallback := fun r' => (hi.mutexCallback r').trans
      (s.setCallback_iff r c (· = .flagged)
        (iff_of_false (fun h => hc (.inl h)) fun h => hq (.inl h)) r').symm
    cancelled := hi.cancelled.trans (exists_congr fun r' =>
      (s.setCallback_iff r c Callback.Cancels (iff_of_false hc hq) r').symm)
    absentOwn :=
      (s.setCallback_iff r c (· = .absent) (iff_of_false habsent hne) .own).trans hi.absentOwn
    staleGone := staleGone_setCallback hi hrun c
    ownHere := by
      rw [State.setCallback_callback]
      split
      · rename_i hr
        exact hhere hr.symm
      · exact hi.ownHere
    ownMissed := by
      rw [State.setCallback_callback]
      split
      · rename_i hr
        exact hmissed hr.symm
      · exact hi.ownMissed
    early := fun hd r' => by
      rw [State.setCallback_callback]
      split
      · exact ⟨hearly hd, hc⟩
      · exact hi.early hd r'
    forwarded := fun r' id hdone => hi.forwarded r' id
      ((s.setCallback_iff r c (· = .done)
        (iff_of_false (fun h => hc (.inr h)) fun h => hq (.inr h)) r').mp hdone) }

/-- The new registration runs its callback only when the delegate is set. -/
theorem hasRegistered_of_own (hi : s.Inv) (h : s.callback .own ≠ .absent) :
    s.phase.hasRegistered = true := by
  by_contra hreg
  exact h (hi.absentOwn.mpr (by simpa using hreg))

theorem hasDelegate_of_existing (hi : s.Inv) (he : s.existing = true) :
    s.phase.hasDelegate = true := by
  by_contra hd
  have hquiet := hi.early (by simpa using hd)
  rcases s.existing_iff.mp he with h | h | h
  · exact hd (Phase.hasDelegate_of_holds h)
  · exact (hquiet .stale).1 h
  · exact (hquiet .own).1 h

theorem inv_flag (hi : s.Inv) {r : Registration} (hc : s.callback r = .locked)
    (hm : s.mutex = none) :
    { s.setCallback r .flagged with mutex := some (.callback r), cancelled := true }.Inv :=
  { hi with
    mutexCallback := fun r' => by
      by_cases hr : r' = r
      · subst hr
        exact iff_of_true rfl (Function.update_self _ _ _)
      · refine iff_of_false (by simpa using Ne.symm hr) fun hf => ?_
        rw [State.setCallback_callback, if_neg hr, ← hi.mutexCallback, hm] at hf
        cases hf
    mutexResolver := by
      refine iff_of_false (by simp) fun hs => ?_
      have hresolver := hi.mutexResolver.mpr hs
      simp [hm] at hresolver
    cancelled := iff_of_true rfl ⟨r, .inl (Function.update_self _ _ _)⟩
    absentOwn :=
      (s.setCallback_iff r .flagged (· = .absent) (by simp [hc]) .own).trans hi.absentOwn
    staleGone := staleGone_setCallback hi (by simp [hc, Callback.Running]) .flagged
    ownHere := mt (s.setCallback_iff r .flagged (· = .elsewhere) (by simp [hc]) .own).mp hi.ownHere
    ownMissed := fun h =>
      hi.ownMissed ((s.setCallback_iff r .flagged (· = .missed) (by simp [hc]) .own).mp h)
    early := fun hd => absurd (.inl hc) (hi.early hd r).1
    forwarded := fun r' id hdone => hi.forwarded r' id
      ((s.setCallback_iff r .flagged (· = .done) (by simp [hc]) r').mp hdone) }

theorem inv_forward (hi : s.Inv) {r : Registration} (hc : s.callback r = .flagged)
    {calls : List ProxyCall}
    (hcalls : calls = if s.remoteId ≠ noAsyncId
      then s.calls ++ [.requestCancellation s.remoteId] else s.calls) :
    { s.setCallback r .done with mutex := none, calls }.Inv :=
  have hmem : ∀ call, call ∈ calls ↔
      call ∈ s.calls ∨ s.remoteId ≠ noAsyncId ∧ call = .requestCancellation s.remoteId :=
    fun _ => mem_calls_iff hcalls
  have howner := (hi.mutexCallback r).mpr hc
  { hi with
    mutexCallback := fun r' => by
      refine iff_of_false (by simp) fun hf => ?_
      rw [State.setCallback_callback] at hf
      split at hf
      · cases hf
      · rename_i hr
        have hr' := (hi.mutexCallback r').mpr hf
        rw [howner] at hr'
        simp only [Option.some.injEq, Party.callback.injEq] at hr'
        exact hr hr'.symm
    mutexResolver := by
      refine iff_of_false (by simp) fun hs => ?_
      have hresolver := hi.mutexResolver.mpr hs
      simp [howner] at hresolver
    cancelled := hi.cancelled.trans (exists_congr fun r' =>
      (s.setCallback_iff r .done Callback.Cancels (by simp [hc, Callback.Cancels]) r').symm)
    submitted := fun id => by
      rw [hmem]
      simpa using hi.submitted id
    exactId := fun id h => by
      rcases (hmem _).mp h with h | ⟨hvalid, h⟩
      · exact hi.exactId id h
      · obtain rfl := ProxyCall.requestCancellation.inj h
        exact ⟨rfl, hvalid⟩
    absentOwn := (s.setCallback_iff r .done (· = .absent) (by simp [hc]) .own).trans hi.absentOwn
    staleGone := staleGone_setCallback hi (by simp [hc, Callback.Running]) .done
    ownHere := mt (s.setCallback_iff r .done (· = .elsewhere) (by simp [hc]) .own).mp hi.ownHere
    ownMissed := fun h =>
      hi.ownMissed ((s.setCallback_iff r .done (· = .missed) (by simp [hc]) .own).mp h)
    early := fun hd => absurd (.inl hc) (hi.early hd r).2
    forwarded := fun r' id _ hp => by
      -- the id was stored before the callback got the mutex
      obtain ⟨hid, hvalid⟩ := hi.stored_of_polled id hp
      exact (hmem _).mpr (.inr ⟨hid ▸ hvalid, by rw [hid]⟩) }

theorem callbackStep_inv {s' : State} {r : Registration} (h : CallbackStep s r s')
    (hi : s.Inv) : s'.Inv := by
  cases h with
  | invoke hc =>
      exact inv_setCallback hi (.inl hc) (by simp [hc, Callback.Cancels])
        (by simp [Callback.Cancels]) (by simp) (by simp) (by simp) (by simp [Callback.Holds])
  | lock hc he =>
      refine inv_setCallback hi (.inr (.inl hc)) (by simp [hc, Callback.Cancels])
        (by simp [Callback.Cancels]) (by simp) (by simp) (by simp) fun hd => ?_
      simp [hasDelegate_of_existing hi he] at hd
  | lockElsewhere hc hd =>
      refine inv_setCallback hi (.inr (.inl hc)) (by simp [hc, Callback.Cancels])
        (by simp [Callback.Cancels]) (by simp) ?_ (by simp) (by simp [Callback.Holds])
      rintro rfl
      have hreg := hasRegistered_of_own hi (by simp [hc])
      simp [Phase.hasDelegate_of_hasRegistered hreg] at hd
  | miss hc he =>
      refine inv_setCallback hi (.inr (.inl hc)) (by simp [hc, Callback.Cancels])
        (by simp [Callback.Cancels]) (by simp) (by simp) ?_ (by simp [Callback.Holds])
      rintro rfl -
      have hreg := hasRegistered_of_own hi (by simp [hc])
      refine Phase.eq_of_not_holds hreg (Bool.eq_false_iff.mpr fun hh => ?_)
      simp [s.existing_iff.mpr (.inl hh)] at he
  | leave hc =>
      refine inv_setCallback hi (.inr (.inr (.inl hc))) (by simp [hc, Callback.Cancels])
        (by simp [Callback.Cancels]) (by simp) (by simp) ?_ (by simp [Callback.Holds])
      rintro rfl
      exact absurd hc hi.ownHere
  | flag hc hm => exact inv_flag hi hc hm
  | forward hc calls hcalls => exact inv_forward hi hc hcalls

end

theorem step_inv {s s' : State} {e : Event} (h : s.step e = some s') (hi : s.Inv) : s'.Inv := by
  cases e with
  | resolver id => exact resolverStep_inv (resolverStep_cases h) hi
  | callback r => exact callbackStep_inv (callbackStep_cases h) hi
  | remoteEnds =>
      simp only [State.step, Option.ite_none_right_eq_some, Option.some.injEq] at h
      obtain ⟨-, rfl⟩ := h
      exact { hi with ended := fun _ _ => rfl }
  | otherEnds =>
      simp only [State.step, Option.ite_none_right_eq_some, Option.some.injEq] at h
      obtain ⟨-, rfl⟩ := h
      exact { hi with }
  | request =>
      obtain rfl := Option.some.inj h
      exact { hi with }

theorem Reaches.of_run {s s' : State} (h : s ∈ initial) (es : List Event)
    (hrun : Transition.run State.step s es = some s') : Reaches s' :=
  Transition.Reachable.run (.start h) hrun

theorem Reaches.inv {s : State} (h : Reaches s) : s.Inv :=
  h.invariant (fun _ => inv_initial) fun _ _ _ hi _ hstep => step_inv hstep hi

/-! ## Every resolution settles -/

/-- Steps other than requests that are still possible. -/
def State.rank (s : State) : ℕ :=
  10 * s.phase.rank + (s.callback .stale).rank + (s.callback .own).rank +
    (if s.remoteEnded then 0 else 1) + (if s.occupied then 1 else 0)

theorem Callback.rank_le (c : Callback) : c.rank ≤ 4 := by
  cases c <;> simp [rank]

theorem Callback.rank_deregister {c : Callback} :
    (if c = waiting then absent else c).rank ≤ c.rank := by
  cases c <;> simp [rank]

theorem resolverStep_rank {s s' : State} (h : ResolverStep s s') : s'.rank < s.rank := by
  have hphase : s'.phase.rank < s.phase.rank := by
    cases h <;> simp [*, Phase.rank]
  have hstale : (s'.callback .stale).rank ≤ (s.callback .stale).rank := by
    cases h with
    | deregister hp hrun => exact Callback.rank_deregister
    | _ => exact le_rfl
  have hrest : s'.remoteEnded = s.remoteEnded ∧ s'.occupied = s.occupied := by
    cases h <;> exact ⟨rfl, rfl⟩
  have hown := (s'.callback .own).rank_le
  simp only [State.rank, hrest]
  omega

/-- A callback changes nothing in the other threads' parts of the state. -/
theorem callbackStep_frame {s s' : State} {r : Registration} (h : CallbackStep s r s') :
    s'.phase = s.phase ∧ s'.remoteEnded = s.remoteEnded ∧ s'.occupied = s.occupied := by
  cases h <;> exact ⟨rfl, rfl, rfl⟩

theorem callbackStep_rank {s s' : State} {r : Registration} (h : CallbackStep s r s') :
    s'.rank < s.rank := by
  have hcallback : ∃ c, c.rank < (s.callback r).rank
      ∧ s'.callback = (s.setCallback r c).callback := by
    cases h with
    | invoke hc | lock hc | lockElsewhere hc | miss hc | leave hc | flag hc | forward hc =>
        exact ⟨_, by rw [hc]; decide, rfl⟩
  obtain ⟨c, hc, hcallback⟩ := hcallback
  obtain ⟨hphase, hended, hother⟩ := callbackStep_frame h
  simp only [State.rank, hcallback, hphase, hended, hother, State.setCallback_callback]
  cases r with
  | stale => simp only [reduceCtorEq, if_false, if_true]; omega
  | own => simp only [reduceCtorEq, if_false, if_true]; omega

/-- Every step but a request brings the resolution nearer to its end. -/
theorem step_rank {s s' : State} {e : Event} (he : e ≠ .request) (h : s.step e = some s') :
    s'.rank < s.rank := by
  cases e with
  | resolver id => exact resolverStep_rank (resolverStep_cases h)
  | callback r => exact callbackStep_rank (callbackStep_cases h)
  | remoteEnds =>
      simp only [State.step, Option.ite_none_right_eq_some, Option.some.injEq] at h
      obtain ⟨⟨-, hended⟩, rfl⟩ := h
      simp [State.rank, hended]
  | otherEnds =>
      simp only [State.step, Option.ite_none_right_eq_some, Option.some.injEq] at h
      obtain ⟨hother, rfl⟩ := h
      simp [State.rank, hother]
  | request => exact absurd rfl he

theorem run_rank {s s' : State} {es : List Event} (hes : ∀ e ∈ es, e ≠ .request)
    (h : Transition.run State.step s es = some s') : es.length + s'.rank ≤ s.rank := by
  induction es generalizing s with
  | nil =>
      obtain rfl := Option.some.inj h
      simp
  | cons e es ih =>
      obtain ⟨s₁, hs, hrest⟩ := Option.bind_eq_some_iff.mp h
      have hlt := step_rank (hes e (by simp)) hs
      have hle := ih (fun e' he' => hes e' (by simp [he'])) hrest
      simp only [List.length_cons]
      omega

/-- Some thread can take a step that is not a request. -/
def State.Enabled (s : State) : Prop :=
  ∃ e s', e ≠ .request ∧ s.step e = some s'

theorem enabled_resolver {s : State} (id : ℕ) (h : (s.resolverStep id).isSome) : s.Enabled := by
  obtain ⟨s', hs'⟩ := Option.isSome_iff_exists.mp h
  exact ⟨.resolver id, s', by simp, hs'⟩

theorem enabled_callback {s : State} (r : Registration) (h : (s.callbackStep r).isSome) :
    s.Enabled := by
  obtain ⟨s', hs'⟩ := Option.isSome_iff_exists.mp h
  exact ⟨.callback r, s', by simp, hs'⟩

/-- Whoever owns the mutex can release it. -/
theorem enabled_of_mutex {s : State} (hi : s.Inv) (h : s.mutex ≠ none) : s.Enabled := by
  obtain ⟨party, hparty⟩ := Option.ne_none_iff_exists'.mp h
  cases party with
  | resolver =>
      obtain ⟨id, hp⟩ := hi.mutexResolver.mp hparty
      exact enabled_resolver id (by simp [State.resolverStep, hp])
  | callback r =>
      have hr := (hi.mutexCallback r).mp hparty
      exact enabled_callback r (by simp [State.callbackStep, hr])

/-- No callback is stuck: it waits for the mutex at most. -/
theorem enabled_of_running {s : State} (hi : s.Inv) {r : Registration}
    (h : (s.callback r).Running) : s.Enabled := by
  by_cases hm : s.mutex = none
  · apply enabled_callback r
    rcases h with h | h | h | h <;> simp [State.callbackStep, h, hm]
  · exact enabled_of_mutex hi hm

/-- As long as `resolve` is not over, it can go on or waits for a callback, for the mutex or for
the contained process. -/
theorem enabled_of_not_ended {s : State} (hi : s.Inv) (h : s.phase.ended = false) :
    s.Enabled := by
  by_cases hm : s.mutex = none
  · by_cases hown : (s.callback .own).Running
    · exact enabled_of_running hi hown
    · by_cases hstale : (s.callback .stale).Running
      · exact enabled_of_running hi hstale
      · cases hp : s.phase with
        | polling id =>
            by_cases he : s.remoteEnded = true
            · exact enabled_resolver id (by simp [State.resolverStep, hp, he])
            · refine ⟨.remoteEnds, { s with remoteEnded := true }, by decide, ?_⟩
              simp [State.step, hp, he, Phase.remoteId?]
        | assigned =>
            apply enabled_resolver 0
            by_cases hr : s.requested = true <;> simp [State.resolverStep, hp, hr]
        | exited | cancelled | rejected => simp [hp, Phase.ended] at h
        | _ =>
            exact enabled_resolver 0
              (by simp [State.resolverStep, hp, hown, hstale, hm, noAsyncId])
  · exact enabled_of_mutex hi hm

theorem settled_or_enabled {s : State} (hi : s.Inv) : s.Settled ∨ s.Enabled := by
  by_cases hp : s.phase.ended = true
  · by_cases hr : (s.callback .own).Running
    · exact .inr (enabled_of_running hi hr)
    · by_cases hw : s.requested = true ∧ s.callback .own = .waiting
      · exact .inr (enabled_callback .own (by simp [State.callbackStep, hw.1, hw.2]))
      · exact .inl ⟨hp, fun hreq => ⟨fun hwait => hw ⟨hreq, hwait⟩, hr⟩⟩
  · exact .inr (enabled_of_not_ended hi (by simpa using hp))

/-! ## What becomes of a cancellation request -/

/-- A fresh context on which nobody resolved anything before. -/
def fresh : State where
  occupied := false
  requested := false
  inTime := false
  phase := .start
  callback := fun _ => .absent
  mutex := none
  cancelled := false
  remoteId := noAsyncId
  remoteEnded := false
  calls := []

theorem fresh_mem : fresh ∈ initial := by
  simp [initial, fresh, Callback.Holds, Callback.Cancels]

/-- The callback forwards the request, unless `resolve` submitted nothing, or its
`creq_context` was destroyed after the remote resolution had ended. -/
theorem outcome_of_settled {s : State} (hi : s.Inv) (hs : s.Settled) (hreq : s.requested = true) :
    ((∀ id, .submitAsync id ∉ s.calls) ∧ (s.phase = .cancelled ∨ s.phase = .rejected))
      ∨ ∃ id, s.phase = .exited id ∧ .submitAsync id ∈ s.calls ∧
        (.requestCancellation id ∈ s.calls
          ∨ (s.callback .own = .missed ∧ s.remoteEnded = true)) := by
  obtain ⟨hwaiting, hrunning⟩ := hs.2 hreq
  cases hp : s.phase with
  | cancelled | rejected =>
      left
      refine ⟨fun id hmem => ?_, by simp⟩
      have := (hi.submitted id).mp hmem
      simp [hp, Phase.remoteId?] at this
  | exited id =>
      right
      refine ⟨id, rfl, (hi.submitted id).mpr (by simp [hp, Phase.remoteId?]), ?_⟩
      have habsent : s.callback .own ≠ .absent := by
        simp [hi.absentOwn, hp, Phase.hasRegistered]
      cases hc : s.callback .own with
      | done => exact .inl (hi.forwarded .own id hc (.inr hp))
      | missed => exact .inr ⟨rfl, hi.ended id hp⟩
      | absent => exact absurd hc habsent
      | waiting => exact absurd hc hwaiting
      | _ => simp [hc, Callback.Running] at hrunning
  | _ => simp [hp, Phase.ended, State.Settled] at hs

/-- The callback of the registration looks in vain for the `creq_context` only after `resolve`
is over. -/
theorem missed_of_exited {s s' : State} (hi : s.Inv) (h : s.callbackStep .own = some s')
    (hmissed : s'.callback .own = .missed) :
    s.phase = .cancelled ∨ ∃ id, s.phase = .exited id ∧ s.remoteEnded = true := by
  have hstep := callbackStep_cases h
  have hexited := (callbackStep_inv hstep hi).ownMissed hmissed
  rw [(callbackStep_frame hstep).1] at hexited
  rcases hexited with hc | ⟨id, hid⟩
  · exact .inl hc
  · exact .inr ⟨id, hid, hi.ended id hid⟩

/-- Along every interleaving the contained process is only asked to cancel the submission
made to it.  When a cancellation was requested and everything came to rest, `resolve` threw
before it submitted anything, or the process was asked to cancel, or the callback came when
the remote resolution had ended and `resolve` was over.  Rest is always reached. -/
theorem cancellation_reaches_process {s : State} (h : Reaches s) :
    (∀ id, .requestCancellation id ∈ s.calls →
      id ≠ noAsyncId ∧ ∀ id', .submitAsync id' ∈ s.calls ↔ id' = id)
    ∧ (s.Settled → s.requested = true →
      ((∀ id, .submitAsync id ∉ s.calls) ∧ (s.phase = .cancelled ∨ s.phase = .rejected))
      ∨ ∃ id, s.phase = .exited id ∧ .submitAsync id ∈ s.calls ∧
        (.requestCancellation id ∈ s.calls
          ∨ (s.callback .own = .missed ∧ s.remoteEnded = true)))
    ∧ (∀ s', s.step (.callback .own) = some s' → s'.callback .own = .missed →
      s.phase = .cancelled ∨ ∃ id, s.phase = .exited id ∧ s.remoteEnded = true)
    ∧ ∀ es s', (∀ e ∈ es, e ≠ .request) → Transition.run State.step s es = some s' →
      es.length ≤ s.rank ∧ (s'.Settled ∨ s'.Enabled) := by
  have hi : s.Inv := h.inv
  refine ⟨fun id hmem => ?_, outcome_of_settled hi, fun s' => missed_of_exited hi, ?_⟩
  · obtain ⟨hid, hvalid⟩ := hi.exactId id hmem
    have hphase : s.phase.remoteId? = some id := by
      rw [hi.remoteId] at hid
      cases hp : s.phase <;> simp_all [Phase.storedId, Phase.remoteId?]
    refine ⟨hvalid, fun id' => ?_⟩
    rw [hi.submitted, hphase, Option.some.injEq]
    exact eq_comm
  · intro es s' hes hrun
    have hinv : s'.Inv := Reaches.inv (Transition.Reachable.run h hrun)
    exact ⟨Nat.le_of_add_right_le (run_rank hes hrun), settled_or_enabled hinv⟩

/-- A resolution whose cancellation arrives between the submission and `set_remote_id`. -/
def lateId : List Event :=
  [.resolver 7, .resolver 7, .resolver 7, .resolver 7, .resolver 7, .resolver 7, .resolver 7,
    .request, .callback .own, .callback .own, .callback .own, .callback .own,
    .resolver 7, .resolver 7, .remoteEnds, .resolver 7]

theorem cancellation_reaches_process_lateId :
    ∃ s, Transition.run State.step fresh lateId = some s ∧ s.Settled ∧ s.requested = true
      ∧ .requestCancellation 7 ∈ s.calls
      ∧ ∀ id', .submitAsync id' ∈ s.calls ↔ id' = 7 := by
  refine ⟨_, rfl, ⟨rfl, fun _ => ?_⟩, rfl, by decide, ?_⟩
  · constructor <;> decide
  · exact ((cancellation_reaches_process (.of_run fresh_mem lateId rfl)).1 7 (by decide)).2

/-- Cancellation is requested while the contained process works on the submission, but the
process finishes and `resolve` is over before the callback runs. -/
def lateCallback : List Event :=
  [.resolver 7, .resolver 7, .resolver 7, .resolver 7, .resolver 7, .resolver 7, .resolver 7,
    .resolver 7, .resolver 7, .request, .remoteEnds, .resolver 7, .callback .own, .callback .own]

/-- A request made before the remote resolution ended can be lost, as the flag of the context
tree is set before the callback runs.  On a context that has another resolution's delegate,
`resolve` does not even get as far as the registration. -/
theorem cancellation_unheard :
    (∃ s, Reaches s ∧ s.Settled ∧ s.inTime = true ∧ s.phase = .exited 7
      ∧ .submitAsync 7 ∈ s.calls ∧ ∀ id, .requestCancellation id ∉ s.calls)
    ∧ ∃ s, Reaches s ∧ s.Settled ∧ s.inTime = true ∧ s.phase = .rejected := by
  constructor
  · refine ⟨_, .of_run fresh_mem lateCallback rfl, ⟨rfl, fun _ => ?_⟩, rfl, rfl, by decide, ?_⟩
    · constructor <;> decide
    · intro id hmem
      simp [fresh, State.setCallback] at hmem
  · have hmem : { fresh with occupied := true } ∈ initial := fresh_mem
    refine ⟨_, .of_run hmem [.request, .resolver 7, .resolver 7] rfl, ⟨rfl, fun _ => ?_⟩, rfl,
      rfl⟩
    constructor <;> decide

end Cradle.Creq
