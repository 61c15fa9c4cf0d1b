import Cradle.Thinknode.Supervisor

/-!
# Failed calculations

A call of `supervise_calculation` that finds an active provider is refused unless the state is
IDLE, so a failed call should leave the state IDLE, or no active provider.  The message thread
sees to it when it loses the connection or reads an answer.  `supervise_calculation` itself
does not: when an image cannot be pulled or a container not be started, it leaves the state at
AWAITING_REGISTRATION and the provider active.  And when a write has failed, the call may
consume a result of before while the state says that the new provider is awaited.
-/

namespace Cradle.Supervisor

/-- The message thread will set the state to IDLE before anything else. -/
def Messenger.settles : Messenger → Bool
  | handling m => isAnswer m
  | caught | failing | settingIdle => true
  | _ => false

/-- The call has set, or is about to set, an AWAITING state, and has no result yet. -/
def Caller.busy : Caller → Bool
  | transmit .storeState => false
  | transmit _ | stopping | spawning | naming | pulling | starting | started | waiting => true
  | idle | entered | checked | requested | cleared | consumed _ => false

/-- In `pull_image` or `spawn_provider`. -/
def Caller.asksDocker : Caller → Bool
  | pulling | starting | started => true
  | _ => false

/-- In front of a store of an AWAITING state. -/
def Caller.setsState : Caller → Bool
  | transmit .storeState | spawning => true
  | _ => false

namespace State

/-- The message thread has handled what it received. -/
def atRest (s : State) : Bool :=
  match s.messenger, s.socket with
  | .outer, _ | .accepting, _ | .reading, none => true
  | .reading, some n => (s.connection n).inbox.isEmpty
  | _, _ => false

/-- The supervisor is not wedged: the next call is not refused for the state. -/
structure Usable (s : State) : Prop where
  left : s.caller = .idle → s.atRest = true → s.state = .idle ∨ s.activeProvider = none
  accepted : s.caller = .entered → s.atRest = true →
    (∀ p, s.activeProvider = some p → p.differs s.current = false) →
    ∀ ok pid, s.callerStep ok pid = some { s with caller := .checked }

/-- No result of before is in the slot, or gets there, other than one that the message thread
sets the state to IDLE for. -/
def slotClear (s : State) : Bool :=
  match s.messenger with
  | .settingIdle => true
  | .producing _ => false
  | _ => s.result.isNone

end State

/-- A request to Docker succeeds, or the message thread sees to the state; and no result of before
is around when the state is set to AWAITING something. -/
def Undisturbed (s : State) : Event → Prop
  | .caller ok _ =>
      (s.caller.asksDocker = true → ok = true ∨ s.state = .idle ∨ s.messenger.settles = true)
        ∧ (s.caller.setsState = true → s.slotClear = true)
  | _ => True

instance (s : State) (e : Event) : Decidable (Undisturbed s e) :=
  match e with
  | .caller ok _ => inferInstanceAs (Decidable (
      (s.caller.asksDocker = true → ok = true ∨ s.state = .idle ∨ s.messenger.settles = true)
        ∧ (s.caller.setsState = true → s.slotClear = true)))
  | .call _ | .messenger _ | .connect _ | .send _ _ | .answer _ _ _ => .isTrue trivial

/-- While the state is not IDLE somebody is there to make it so again, and a result can only be
had if that is about to happen. -/
structure State.Attended (s : State) : Prop where
  running : s.state ≠ .terminated
  waited : s.state ≠ .idle → s.caller.busy = true ∨ s.messenger.settles = true
  slot : s.state ≠ .idle → s.result.isSome = true → s.messenger = .settingIdle
  producing : ∀ r, s.messenger = .producing r → s.state = .idle
  registering : s.messenger = .transmit .storeState → s.state ≠ .idle

section
open State
variable {s s' : State}

/-- At rest, an attended supervisor is IDLE when no call is under way. -/
theorem State.Attended.idle (h : s.Attended) (hbusy : s.caller.busy = false)
    (hrest : s.atRest = true) : s.state = .idle := by
  by_contra hs
  rcases h.waited hs with hb | hm
  · simp [hbusy] at hb
  · unfold State.atRest at hrest
    split at hrest <;> simp_all [Messenger.settles]

theorem State.Attended.usable (h : s.Attended) : s.Usable := by
  constructor
  · intro hc hrest
    exact .inl (h.idle (by rw [hc]; rfl) hrest)
  · intro hc hrest hp ok pid
    have hs := h.idle (by rw [hc]; rfl) hrest
    rw [State.callerStep.eq_def, hc]
    dsimp only
    split
    · rename_i p hprovider
      simp [hs, hp p hprovider]
    · rfl

/-! ## The steps of the caller -/

/-- The caller goes on with the state as it is. -/
theorem attended_keep (h : s.Attended) (hstate : s'.state = s.state)
    (hm : s'.messenger = s.messenger) (hr : s'.result.isSome = true → s.result.isSome = true)
    (hbusy : s.state ≠ .idle → s.caller.busy = true →
      s'.caller.busy = true ∨ s.messenger.settles = true) : s'.Attended where
  running := by rw [hstate]; exact h.running
  waited := by
    rw [hstate, hm]
    intro hs
    exact (h.waited hs).elim (hbusy hs) .inr
  slot := by
    rw [hstate, hm]
    exact fun hs hres => h.slot hs (hr hres)
  producing := by rw [hstate, hm]; exact h.producing
  registering := by rw [hstate, hm]; exact h.registering

/-- The caller sets the state. -/
theorem attended_set (hclear : s.slotClear = true) (hm : s'.messenger = s.messenger)
    (hr : s'.result = s.result) (hs : s'.state = .awaitingRegistration ∨ s'.state = .awaitingResult)
    (hbusy : s'.caller.busy = true) : s'.Attended where
  running := by rcases hs with hs | hs <;> simp [hs]
  waited := fun _ => .inl hbusy
  slot := by
    intro _ hres
    unfold slotClear at hclear
    split at hclear <;> simp_all
  producing := by
    intro r hp
    rw [hm] at hp
    simp [slotClear, hp] at hclear
  registering := by
    intro _
    rcases hs with hs | hs <;> simp [hs]

/-- The call is left, or goes on to a stage where it waits for nothing. -/
theorem attended_leave (h : s.Attended) (c : Caller)
    (hs : s.state = .idle ∨ s.messenger.settles = true) : { s with caller := c }.Attended :=
  attended_keep h rfl rfl id fun hne _ => .inr (hs.resolve_left hne)

theorem attended_move (h : s.Attended) (c : Caller)
    (hbusy : s.caller.busy = true → c.busy = true) : { s with caller := c }.Attended :=
  attended_keep h rfl rfl id fun _ hb => .inl (hbusy hb)

theorem attended_docker (h : s.Attended) {ok : Bool} (c c' : Caller) (hc : c.busy = true)
    (hok : ok = true ∨ s.state = .idle ∨ s.messenger.settles = true) :
    { s with caller := if ok then c else c' }.Attended := by
  cases ok with
  | true => exact attended_move h c fun _ => hc
  | false => exact attended_leave h c' (hok.resolve_left (by simp))

theorem callerStep_attended {ok : Bool} {pid : Bytes} (hi : s.Attended)
    (hok : Undisturbed s (.caller ok pid)) (h : s.callerStep ok pid = some s') : s'.Attended := by
  obtain ⟨hdocker, hclear⟩ := hok
  cases hc : s.caller with
  | idle => simp [State.callerStep, hc] at h
  | entered =>
      have hbusy : ∀ c : Caller, s.caller.busy = true → c.busy = true := by simp [hc, Caller.busy]
      simp only [State.callerStep, hc] at h
      split at h
      · split at h
        · obtain rfl := Option.some.inj h
          exact attended_move hi _ (hbusy _)
        · obtain rfl := Option.some.inj h
          exact attended_move hi _ (hbusy _)
      · obtain rfl := Option.some.inj h
        exact attended_move hi _ (hbusy _)
  | checked =>
      simp only [State.callerStep, hc] at h
      obtain rfl := Option.some.inj h
      exact attended_keep hi rfl rfl id (by simp [hc, Caller.busy])
  | requested =>
      simp only [State.callerStep, hc] at h
      obtain rfl := Option.some.inj h
      exact attended_keep hi rfl rfl (by simp) (by simp [hc, Caller.busy])
  | cleared =>
      have hbusy : ∀ c : Caller, s.caller.busy = true → c.busy = true := by simp [hc, Caller.busy]
      simp only [State.callerStep, hc] at h
      split at h
      · obtain rfl := Option.some.inj h
        exact attended_move hi _ (hbusy _)
      · obtain rfl := Option.some.inj h
        exact attended_move hi _ (hbusy _)
  | transmit t =>
      simp only [State.callerStep, hc] at h
      obtain ⟨o, ho, rfl⟩ := Option.map_eq_some_iff.mp h
      cases transmitStep_cases ho with
      | storeState =>
          exact attended_set (hclear (by rw [hc]; rfl)) rfl rfl (.inr rfl) rfl
      | makeMessage request hr => exact attended_keep hi rfl rfl id fun _ _ => .inl rfl
      | write n request => exact attended_keep hi rfl rfl id fun _ _ => .inl rfl
      | lose socket request hlost => exact attended_keep hi rfl rfl id fun _ _ => .inl rfl
      | resetRequest => exact attended_keep hi rfl rfl id fun _ _ => .inl rfl
  | stopping =>
      simp only [State.callerStep, hc] at h
      obtain rfl := Option.some.inj h
      exact attended_keep hi rfl rfl id fun _ _ => .inl rfl
  | spawning =>
      simp only [State.callerStep, hc] at h
      obtain rfl := Option.some.inj h
      exact attended_set (hclear (by rw [hc]; rfl)) rfl rfl (.inl rfl) rfl
  | naming =>
      simp only [State.callerStep, hc] at h
      obtain rfl := Option.some.inj h
      exact attended_keep hi rfl rfl id fun _ _ => .inl rfl
  | pulling =>
      simp only [State.callerStep, hc] at h
      obtain rfl := Option.some.inj h
      exact attended_docker hi .starting .idle rfl (hdocker (by rw [hc]; rfl))
  | starting =>
      simp only [State.callerStep, hc] at h
      split at h
      · obtain ⟨p, hp, rfl⟩ := Option.map_eq_some_iff.mp h
        exact attended_keep hi rfl rfl id fun _ _ => .inl rfl
      · rename_i hfail
        obtain rfl := Option.some.inj h
        exact attended_leave hi .idle ((hdocker (by rw [hc]; rfl)).resolve_left hfail)
  | started =>
      simp only [State.callerStep, hc] at h
      obtain rfl := Option.some.inj h
      exact attended_docker hi .waiting .idle rfl (hdocker (by rw [hc]; rfl))
  | waiting =>
      simp only [State.callerStep, hc] at h
      obtain ⟨r, hr, rfl⟩ := Option.map_eq_some_iff.mp h
      refine attended_keep hi rfl rfl (by simp) fun hs _ => .inr ?_
      rw [hi.slot hs (by rw [hr]; rfl)]
      rfl
  | consumed r =>
      have hbusy : ∀ c : Caller, s.caller.busy = true → c.busy = true := by simp [hc, Caller.busy]
      cases r with
      | none =>
          simp only [State.callerStep, hc] at h
          obtain rfl := Option.some.inj h
          exact attended_move hi _ (hbusy _)
      | some v =>
          simp only [State.callerStep, hc] at h
          split at h
          · obtain rfl := Option.some.inj h
            exact attended_move hi _ (hbusy _)
          · obtain rfl := Option.some.inj h
            exact attended_keep hi rfl rfl id (by simp [hc, Caller.busy])

/-! ## The steps of the message thread -/

/-- The message thread goes on with the state and the slot as they are. -/
theorem attended_moveMessenger (h : s.Attended) (hstate : s'.state = s.state)
    (hcaller : s'.caller = s.caller) (hr : s'.result = s.result)
    (hslot : s.messenger ≠ .settingIdle)
    (hsettles : s.messenger.settles = true → s.state ≠ .idle → s'.messenger.settles = true)
    (hproducing : ∀ r, s'.messenger ≠ .producing r)
    (hregister : s'.messenger = .transmit .storeState → s.state ≠ .idle) : s'.Attended where
  running := by rw [hstate]; exact h.running
  waited := by
    rw [hstate, hcaller]
    exact fun hs => (h.waited hs).imp id fun hm => hsettles hm hs
  slot := by
    rw [hstate, hr]
    exact fun hs hres => absurd (h.slot hs hres) hslot
  producing := fun r hp => absurd hp (hproducing r)
  registering := by rw [hstate]; exact hregister

/-- So it does when it has not promised to set the state. -/
theorem attended_serve (h : s.Attended) (hstate : s'.state = s.state)
    (hcaller : s'.caller = s.caller) (hr : s'.result = s.result)
    (hquiet : s.messenger.settles = false) (hproducing : ∀ r, s'.messenger ≠ .producing r)
    (hregister : s'.messenger = .transmit .storeState → s.state ≠ .idle) : s'.Attended := by
  apply attended_moveMessenger h hstate hcaller hr _ _ hproducing hregister
  · intro hset
    simp [hset, Messenger.settles] at hquiet
  · intro hsettles
    simp [hsettles] at hquiet

/-- Once the state is IDLE, all is well. -/
theorem attended_idle (hs : s'.state = .idle) (hm : s'.messenger ≠ .transmit .storeState) :
    s'.Attended where
  running := by simp [hs]
  waited := fun hne => absurd hs hne
  slot := fun hne => absurd hs hne
  producing := fun _ _ => hs
  registering := fun h => absurd h hm

theorem messengerStep_attended {ok : Bool} (hi : s.Attended) (h : s.messengerStep ok = some s') :
    s'.Attended := by
  cases messengerStep_cases h with
  | outer hm =>
      exact attended_serve hi rfl rfl rfl (by rw [hm]; rfl) (by simp) (by simp)
  | read n m rest hm hn hin =>
      exact attended_serve hi rfl rfl rfl (by rw [hm]; rfl) (by simp) (by simp)
  | lose hm =>
      refine attended_moveMessenger hi rfl rfl rfl ?_ (fun _ _ => rfl) (by simp) (by simp)
      intro hset
      simp [hset, Messenger.live] at hm
  | ignore m hm ha =>
      exact attended_serve hi rfl rfl rfl (by rw [hm]; exact ha) (by simp) (by simp)
  | register r hm hs =>
      exact attended_serve hi rfl rfl rfl (by rw [hm]; rfl) (by simp) (by simp [hs])
  | answer m r hm ha hr => exact attended_idle rfl (by simp)
  | storeState hm =>
      have hs := hi.registering hm
      constructor
      · simp
      · intro _
        refine .inl ((hi.waited hs).resolve_right ?_)
        simp [hm, Messenger.settles]
      · intro _ hres
        have := hi.slot hs hres
        simp [hm] at this
      · simp
      · simp
  | makeMessage hm request hr =>
      exact attended_serve hi rfl rfl rfl (by rw [hm]; rfl) (by simp) (by simp)
  | write n request hm =>
      exact attended_serve hi rfl rfl rfl (by rw [hm]; rfl) (by simp) (by simp)
  | resetRequest hm =>
      exact attended_serve hi rfl rfl rfl (by rw [hm]; rfl) (by simp) (by simp)
  | produce r hm => exact attended_idle (hi.producing r hm) (by simp)
  | recover hm =>
      have hs : s.state = .idle := by
        by_contra hs
        simp [State.messengerStep, hm, hs, hi.running] at h
      exact attended_idle hs (by simp)
  | fail hm hs =>
      exact attended_moveMessenger hi rfl rfl rfl (by simp [hm]) (fun _ _ => rfl) (by simp)
        (by simp)
  | produceNone hm =>
      constructor
      · exact hi.running
      · exact fun _ => .inr rfl
      · exact fun _ _ => rfl
      · simp
      · simp
  | settle hm => exact attended_idle rfl (by simp)

/-! ## Runs -/

theorem attended_initial : State.Attended {} := attended_idle rfl (by simp)

theorem step_attended {e : Event} (hi : s.Attended) (h : s.step e = some s')
    (hok : Undisturbed s e) : s'.Attended := by
  cases e with
  | call c =>
      simp only [State.step] at h
      split at h
      · rename_i hc
        obtain rfl := Option.some.inj h
        exact attended_keep hi rfl rfl id (by simp [hc, Caller.busy])
      · cases h
  | caller ok pid => exact callerStep_attended hi hok h
  | messenger ok => exact messengerStep_attended hi h
  | connect pid =>
      simp only [State.step] at h
      split at h
      · rename_i hm
        split at h
        · obtain rfl := Option.some.inj h
          exact attended_serve hi rfl rfl rfl (by rw [hm]; rfl) (by simp) (by simp)
        · cases h
      · cases h
  | send n m =>
      simp only [State.step] at h
      split at h
      · obtain rfl := Option.some.inj h
        exact attended_keep hi rfl rfl id fun _ => .inl
      · cases h
  | answer n i m =>
      simp only [State.step] at h
      split at h
      · obtain rfl := Option.some.inj h
        exact attended_keep hi rfl rfl id fun _ => .inl
      · cases h

end

/-- A supervisor is usable all along a run in which Docker does what it is asked to, or the message
thread sees to the state, and no result of before is around when the state is set. -/
theorem along_usable (events : List Event)
    (h : Transition.StepsMeet State.step Undisturbed {} events) :
    Transition.Along State.step State.Usable {} events :=
  Transition.along_of_stepsMeet (fun _ => State.Attended.usable)
    (fun _ _ _ => step_attended) attended_initial h

/-- The provider of the first call goes away during the second, and a third call is made. -/
def lostCall : List Event :=
  firstCall ++ [.call (calculationOf 2)] ++ callerSteps 8 [] ++ [.messenger false]
    ++ messengerSteps 4 ++ callerSteps 2 [] ++ [.call (calculationOf 3)]

theorem along_usable_lostCall : Transition.Along State.step State.Usable {} lostCall :=
  along_usable lostCall (by decide)

/-- Docker does what it is asked to. -/
def DockerWorks (s : State) : Event → Prop
  | .caller ok _ => s.caller.asksDocker = true → ok = true
  | _ => True

/-- Where the caller's writes succeed, no result of before is around. -/
theorem undisturbed_of_steady {s : State} {e : Event} (hi : s.Inv) (h : DockerWorks s e) :
    Undisturbed s e := by
  cases e with
  | caller ok pid =>
      refine ⟨fun hc => .inl (h hc), fun hc => ?_⟩
      have hstage : s.caller.stage = .ready := by
        unfold Caller.setsState at hc
        split at hc <;> simp_all [Caller.stage]
      have htokens := hi.shared.tokens_eq_zero (by simp [hstage]) (by simp [hstage])
      obtain ⟨-, hm, hr⟩ := s.tokens_eq_zero_iff.mp htokens
      unfold State.slotClear
      split
      · rfl
      · rename_i hp
        simp [hp, Messenger.tokens] at hm
      · simp [hr]
  | call | messenger | connect | send | answer => trivial

theorem usable_of_steady {s : State}
    (h : Transition.Reachable State.step (fun s e => Steady s e ∧ DockerWorks s e) {s | s = {}} s) :
    s.Usable := by
  have hinv : s.Inv ∧ s.Attended := by
    apply h.invariant (I := fun s => s.Inv ∧ s.Attended)
    · rintro s rfl
      exact ⟨inv_initial, attended_initial⟩
    · intro s s' e hi hok hstep
      have hundisturbed := undisturbed_of_steady hi.1 hok.2
      exact ⟨step_inv hi.1 hok.1 hstep, step_attended hi.2 hstep hundisturbed⟩
  exact hinv.2.usable

/-- When Docker fails at a time at which the message thread has nothing to do, the supervisor is
wedged. -/
theorem not_usable_of_fails {s s' : State} {pid : Bytes} (hdocker : s.caller.asksDocker = true)
    (hrest : s.atRest = true) (hs : s.state ≠ .idle) (hp : s.activeProvider.isSome = true)
    (h : s.callerStep false pid = some s') : ¬ s'.Usable := by
  have hs' : s' = { s with caller := .idle } := by
    cases hc : s.caller <;> simp_all [Caller.asksDocker, State.callerStep]
  intro husable
  rw [hs'] at husable
  rcases husable.left rfl hrest with hidle | hnone
  · exact hs hidle
  · exact absurd hp (by simp [show s.activeProvider = none from hnone])

/-- The image cannot be pulled. -/
def failedPull : List Event := .call (calculationOf 1) :: callerSteps 6 [5] ++ [.caller false []]

theorem not_along_usable_failedPull :
    ¬ Transition.Along State.step State.Usable {} failedPull := by
  intro h
  obtain ⟨s, hrun⟩ : ∃ s, Transition.run State.step {} failedPull = some s :=
    Option.isSome_iff_exists.mp (by decide)
  have hs : (Transition.run State.step {} failedPull).map
        (fun s => (s.caller, s.state, s.atRest, s.activeProvider.isSome))
      = some (.idle, .awaitingRegistration, true, true) := by
    rfl
  rw [hrun] at hs
  simp only [Option.map_some, Option.some.injEq, Prod.mk.injEq] at hs
  obtain ⟨hcaller, hstate, hrest, hprovider⟩ := hs
  rcases (h.run hrun).left hcaller hrest with hidle | hnone
  · simp [hstate] at hidle
  · simp [hnone] at hprovider

end Cradle.Supervisor
