import Cradle.Lib.Transition
import Cradle.Thinknode.Ipc

/-!
# Supervising local calculations

A supervisor runs Thinknode calculations in a provider, a Docker container that connects to
it, registers, and then answers each FUNCTION message with a RESULT or a FAILURE.  The caller
of `supervise_calculation` and the thread that runs `process_messages` share the pending
request, the provider, the state and a slot for the result.  Either of them may transmit the
request: the caller to a provider that is there already, the message thread when a new one
registers.

A thread takes one step between two accesses to shared data.  `calls`, `transmitted`,
`answered` and `returned` are not in the program: they record the calls, the FUNCTION messages
that went out whole, the providers' answers to them, and the values that calls have returned.
-/

namespace Cradle.Supervisor

open Ipc (CalculationRequest ProviderMessage)

/-- `thinknode_provider_image_info`. -/
inductive ProviderImageInfo
  | tag (s : Bytes)
  | digest (s : Bytes)

/-- `extract_tag`. -/
def ProviderImageInfo.extractTag : ProviderImageInfo → Bytes
  | tag s => s
  | digest s => s

/-- The arguments of `supervise_calculation`. -/
structure Calculation where
  account : Bytes
  app : Bytes
  image : ProviderImageInfo
  functionName : Bytes
  args : List Dynamic

/-- The request that the calculation stands for. -/
def Calculation.request (c : Calculation) : CalculationRequest := ⟨c.functionName, c.args⟩

/-- `local_supervisor_state`. -/
inductive SupervisorState
  | idle | awaitingRegistration | awaitingResult | terminated
  deriving DecidableEq, Repr

/-- `local_provider_info`. -/
structure ProviderInfo where
  account : Bytes
  app : Bytes
  imageTag : Bytes
  pid : Bytes
  deriving DecidableEq

/-- The provider is not the one that the calculation needs. -/
def ProviderInfo.differs (p : ProviderInfo) (c : Calculation) : Bool :=
  p.account ≠ c.account ∨ p.app ≠ c.app ∨ p.imageTag ≠ c.image.extractTag

/-- A provider's end of a connection: the FUNCTION messages it has yet to answer, by their
positions in `transmitted`, and what it has sent and the supervisor has not read. -/
structure Connection where
  unanswered : List ℕ := []
  inbox : List ProviderMessage := []

/-- A FUNCTION message, and the call during which it was transmitted. -/
structure Transmitted where
  call : Option ℕ
  request : CalculationRequest

/-- Where a thread is in `transmit_request`. -/
inductive Transmit
  | storeState
  | makeMessage
  /-- The message is made, and the socket looked up. -/
  | write (socket : Option ℕ) (request : CalculationRequest)
  | resetRequest

/-- Where the caller is in `supervise_calculation`. -/
inductive Caller
  | idle
  | entered
  | checked
  | requested
  | cleared
  | transmit (t : Transmit)
  | stopping
  | spawning
  | naming
  | pulling
  | starting
  /-- The container runs, but `spawn_provider` has not returned. -/
  | started
  | waiting
  | consumed (result : Option Dynamic)

/-- Where the message thread is in `process_messages`. -/
inductive Messenger
  | outer
  | accepting
  | reading
  | handling (message : ProviderMessage)
  | transmit (t : Transmit)
  | producing (result : Option Dynamic)
  /-- In the handler for exceptions. -/
  | caught
  | failing
  | settingIdle

/-- `local_supervisor_data` with its two threads and the providers. -/
structure State where
  state : SupervisorState := .idle
  activeRequest : Option CalculationRequest := none
  activeProvider : Option ProviderInfo := none
  result : Option (Option Dynamic) := none
  /-- The connection of the socket, if it has one. -/
  socket : Option ℕ := none
  caller : Caller := .idle
  messenger : Messenger := .outer
  /-- The providers that run and have not connected. -/
  spawned : List Bytes := []
  nextConnection : ℕ := 0
  connection : ℕ → Connection := fun _ => {}
  current : Calculation := ⟨[], [], .tag [], [], []⟩
  calls : List Calculation := []
  transmitted : List Transmitted := []
  answered : List (ℕ × ProviderMessage) := []
  returned : List (ℕ × Dynamic) := []

/-- What becomes of `transmit_request` in a step. -/
inductive Transmission
  | goesOn (t : Transmit)
  | done
  | threw

namespace State

/-- The number of the call in progress. -/
def currentCall (s : State) : Option ℕ :=
  match s.caller with
  | .idle => none
  | _ => some (s.calls.length - 1)

/-- The message arrives at the other end of a connection. -/
def deliver (s : State) (n : ℕ) (request : CalculationRequest) : State :=
  { s with
    transmitted := s.transmitted ++ [⟨s.currentCall, request⟩]
    connection := Function.update s.connection n
      { s.connection n with
        unanswered := (s.connection n).unanswered ++ [s.transmitted.length] } }

/-- The next step of `transmit_request`; `ok` tells if the write succeeds, which it does not
without a connection. -/
def transmitStep (s : State) (ok : Bool) : Transmit → Option (State × Transmission)
  | .storeState =>
      s.activeRequest.map fun _ => ({ s with state := .awaitingResult }, .goesOn .makeMessage)
  | .makeMessage =>
      -- the arguments are moved out of the active request
      s.activeRequest.map fun request =>
        ({ s with activeRequest := some { request with args := [] } },
          .goesOn (.write s.socket request))
  | .write socket request =>
      if ok then socket.map fun n => (s.deliver n request, .goesOn .resetRequest)
      else some (s, .threw)
  | .resetRequest => some ({ s with activeRequest := none }, .done)

/-- The next step of `supervise_calculation`; `ok` tells if the write, or the request to Docker,
succeeds, and `pid` is the new provider's id. -/
def callerStep (s : State) (ok : Bool) (pid : Bytes) : Option State :=
  match s.caller with
  | .idle => none
  | .entered =>
      match s.activeProvider with
      | some p =>
          if s.state ≠ .idle ∨ p.differs s.current then some { s with caller := .idle }
          else some { s with caller := .checked }
      | none => some { s with caller := .checked }
  | .checked =>
      some { s with caller := .requested, activeRequest := some s.current.request }
  | .requested => some { s with caller := .cleared, result := none }
  | .cleared =>
      match s.activeProvider with
      | some _ => some { s with caller := .transmit .storeState }
      | none => some { s with caller := .spawning }
  | .transmit t =>
      (s.transmitStep ok t).map fun
        | (s', .goesOn t') => { s' with caller := .transmit t' }
        | (s', .done) => { s' with caller := .waiting }
        | (s', .threw) => { s' with caller := .stopping }
  | .stopping => some { s with caller := .spawning, activeProvider := none }
  | .spawning => some { s with caller := .naming, state := .awaitingRegistration }
  | .naming =>
      some { s with
        caller := .pulling
        activeProvider :=
          some ⟨s.current.account, s.current.app, s.current.image.extractTag, pid⟩ }
  | .pulling => some { s with caller := if ok then .starting else .idle }
  | .starting =>
      if ok then
        s.activeProvider.map fun p =>
          { s with caller := .started, spawned := s.spawned ++ [p.pid] }
      else some { s with caller := .idle }
  | .started => some { s with caller := if ok then .waiting else .idle }
  | .waiting => s.result.map fun r => { s with caller := .consumed r, result := none }
  | .consumed none => some { s with caller := .idle }
  | .consumed (some v) =>
      if s.state ≠ .idle then some { s with caller := .idle }
      else some { s with caller := .idle, returned := s.returned ++ [(s.calls.length - 1, v)] }

/-- The next step of `process_messages`; `ok` tells if the read or the write succeeds.  The
assertion about a registration stops the program. -/
def messengerStep (s : State) (ok : Bool) : Option State :=
  match s.messenger with
  | .outer =>
      if s.state = .terminated then none
      else some { s with messenger := .accepting, socket := none }
  | .accepting => none
  | .reading =>
      if ok then
        s.socket.bind fun n =>
          match (s.connection n).inbox with
          | [] => none
          | m :: rest =>
              some { s with
                messenger := .handling m
                connection := Function.update s.connection n
                  { s.connection n with inbox := rest } }
      else some { s with messenger := .caught }
  | .handling (.registration r) =>
      if s.state = .awaitingRegistration then
        match s.activeProvider, s.activeRequest with
        | some p, some _ =>
            if r.pid = p.pid then some { s with messenger := .transmit .storeState }
            else some { s with messenger := .reading }
        | _, _ => none
      else some { s with messenger := .reading }
  | .handling (.result v) => some { s with messenger := .producing (some v), state := .idle }
  | .handling (.failure _) => some { s with messenger := .producing none, state := .idle }
  | .handling _ => some { s with messenger := .reading }
  | .transmit t =>
      (s.transmitStep ok t).map fun
        | (s', .goesOn t') => { s' with messenger := .transmit t' }
        | (s', .done) => { s' with messenger := .reading }
        | (s', .threw) => { s' with messenger := .caught }
  | .producing r => some { s with messenger := .reading, result := some r }
  | .caught =>
      if s.state ≠ .idle ∧ s.state ≠ .terminated then some { s with messenger := .failing }
      else some { s with messenger := .outer }
  | .failing => some { s with messenger := .settingIdle, result := some none }
  | .settingIdle => some { s with messenger := .outer, state := .idle }

end State

/-- The message answers a FUNCTION message. -/
def isAnswer : ProviderMessage → Bool
  | .result _ | .failure _ => true
  | _ => false

inductive Event
  /-- `supervise_calculation` is called. -/
  | call (c : Calculation)
  | caller (ok : Bool) (pid : Bytes)
  | messenger (ok : Bool)
  /-- A provider connects, and `accept` returns. -/
  | connect (pid : Bytes)
  /-- The provider at a connection sends something that is no answer. -/
  | send (n : ℕ) (m : ProviderMessage)
  /-- The provider at a connection answers one of the FUNCTION messages that it received. -/
  | answer (n i : ℕ) (m : ProviderMessage)

def State.step (s : State) : Event → Option State
  | .call c =>
      match s.caller with
      | .idle => some { s with caller := .entered, current := c, calls := s.calls ++ [c] }
      | _ => none
  | .caller ok pid => s.callerStep ok pid
  | .messenger ok => s.messengerStep ok
  | .connect pid =>
      match s.messenger with
      | .accepting =>
          if pid ∈ s.spawned then
            some { s with
              messenger := .reading
              socket := some s.nextConnection
              nextConnection := s.nextConnection + 1
              spawned := s.spawned.erase pid }
          else none
      | _ => none
  | .send n m =>
      if n < s.nextConnection ∧ isAnswer m = false then
        some { s with
          connection := Function.update s.connection n
            { s.connection n with inbox := (s.connection n).inbox ++ [m] } }
      else none
  | .answer n i m =>
      if i ∈ (s.connection n).unanswered ∧ isAnswer m = true then
        some { s with
          answered := s.answered ++ [(i, m)]
          connection := Function.update s.connection n
            { unanswered := (s.connection n).unanswered.erase i
              inbox := (s.connection n).inbox ++ [m] } }
      else none

/-- Every FUNCTION message transmitted during a call carries the call's function name and its
complete arguments. -/
def State.OwnFunctions (s : State) : Prop :=
  ∀ f ∈ s.transmitted, ∀ k, f.call = some k → ∃ c, s.calls[k]? = some c ∧ f.request = c.request

/-- A value returned by a call is the RESULT that answers a FUNCTION message of that call. -/
def State.OwnResults (s : State) : Prop :=
  ∀ k v, (k, v) ∈ s.returned →
    ∃ i f, (i, .result v) ∈ s.answered ∧ s.transmitted[i]? = some f ∧ f.call = some k

/-- Calls get their own arguments and results. -/
structure State.Own (s : State) : Prop where
  functions : s.OwnFunctions
  results : s.OwnResults

/-- A failure here makes `supervise_calculation` try again, or give up with a provider
underway. -/
def Caller.fragile : Caller → Bool
  | transmit (.write _ _) | started => true
  | _ => false

/-- The caller's write does not fail, and `spawn_provider` does not throw for a container that
runs. -/
def Steady (s : State) : Event → Prop
  | .caller ok _ => s.caller.fragile = true → ok = true
  | _ => True

instance (s : State) (e : Event) : Decidable (Steady s e) :=
  match e with
  | .caller ok _ => inferInstanceAs (Decidable (s.caller.fragile = true → ok = true))
  | .call _ | .messenger _ | .connect _ | .send _ _ | .answer _ _ _ => .isTrue trivial

/-! ## Steady runs

In a steady run only one provider is ever started and it connects once, as connection 0; when
the message thread leaves that connection it never reads again.  The invariant consists of what
holds of the shared data, and of what each thread knows at the point where it is. -/

/-- The parts of `supervise_calculation`. -/
inductive Stage
  /-- Nothing is asked for. -/
  | out
  | ready
  /-- A provider is to be started. -/
  | launching
  | transmitting
  | awaiting
  deriving DecidableEq

def Caller.stage : Caller → Stage
  | idle | entered | stopping | consumed _ => .out
  | checked | requested | cleared | transmit .storeState | spawning => .ready
  | naming | pulling | starting => .launching
  | transmit .makeMessage | transmit (.write _ _) | transmit .resetRequest => .transmitting
  | started | waiting => .awaiting

/-- The message thread reads from a connection or handles what it has read. -/
def Messenger.live : Messenger → Bool
  | reading | handling _ | transmit _ | producing _ => true
  | _ => false

/-- The message thread has something to put into the slot. -/
def Messenger.tokens : Messenger → ℕ
  | handling m => if isAnswer m then 1 else 0
  | producing _ | failing => 1
  | _ => 0

/-- Answers that a provider owes or has sent. -/
def Connection.tokens (c : Connection) : ℕ :=
  c.unanswered.length + (c.inbox.filter isAnswer).length

namespace State

/-- The results that will get to the slot or are there. -/
def tokens (s : State) : ℕ :=
  (if s.messenger.live then (s.connection 0).tokens else 0) + s.messenger.tokens +
    (if s.result.isSome then 1 else 0)

/-- The providers that were started. -/
def providers (s : State) : ℕ := s.spawned.length + s.nextConnection

/-- The value answers a FUNCTION message of the last call. -/
def Answers (s : State) (v : Dynamic) : Prop :=
  ∃ i f, (i, .result v) ∈ s.answered ∧ s.transmitted[i]? = some f
    ∧ f.call = some (s.calls.length - 1)

/-- What holds of the shared data. -/
structure Shared (s : State) : Prop where
  one : s.providers ≤ 1
  started : 1 ≤ s.providers → s.activeProvider.isSome = true ∧ s.caller.stage ≠ .launching
  unnamed : s.activeProvider = none → s.state = .idle ∨ s.caller.stage = .launching
  unconnected : s.nextConnection = 0 → s.messenger.live = false ∧ s.messenger.tokens = 0
    ∧ s.messenger ≠ .caught ∧ s.messenger ≠ .settingIdle ∧ s.connection 0 = {}
  unregistered : s.spawned ≠ [] → s.caller.stage = .awaiting ∧ s.result = none
  socket : s.socket = none ∨ (s.socket = some 0 ∧ s.nextConnection = 1)
  live : s.messenger.live = true → s.socket = some 0
  busy : s.state ≠ .idle → s.messenger ≠ .settingIdle → 1 ≤ s.providers →
    s.result = none ∧ (s.caller.stage = .transmitting ∨ s.caller.stage = .awaiting)
  registering : s.state = .awaitingRegistration → s.caller.stage ≠ .transmitting
    ∧ (s.connection 0).tokens = 0
    ∧ (s.caller.stage = .awaiting → s.activeRequest = some s.current.request)
  ready : s.caller.stage = .ready → s.state = .idle
  oneToken : s.tokens ≤ 1
  expected : 1 ≤ s.tokens → s.caller.stage = .transmitting ∨ s.caller.stage = .awaiting
  last : ∀ k, s.currentCall = some k → k = s.calls.length - 1 ∧ s.calls[k]? = some s.current
  unanswered : s.messenger.live = true → ∀ i ∈ (s.connection 0).unanswered,
    ∃ f, s.transmitted[i]? = some f ∧ f.call = some (s.calls.length - 1)
  inbox : s.messenger.live = true → ∀ v, .result v ∈ (s.connection 0).inbox → s.Answers v
  slot : ∀ v, s.result = some (some v) → s.Answers v

/-- What the caller knows. -/
def CallerKnows (s : State) : Prop :=
  match s.caller with
  | .requested | .cleared => s.activeRequest = some s.current.request
  | .transmit .storeState | .pulling | .starting =>
      s.activeRequest = some s.current.request ∧ s.activeProvider.isSome = true
  | .transmit .makeMessage =>
      s.activeRequest = some s.current.request ∧ (s.messenger.live = true → s.tokens = 0)
  | .transmit (.write n r) =>
      r = s.current.request ∧ (n = none ∨ (n = some 0 ∧ s.nextConnection = 1))
        ∧ (s.messenger.live = true → s.tokens = 0)
  | .spawning | .naming => s.activeRequest = some s.current.request ∧ s.activeProvider = none
  | .consumed (some v) => s.Answers v
  | .stopping => False
  | _ => True

/-- What the message thread knows. -/
def MessengerKnows (s : State) : Prop :=
  match s.messenger with
  | .handling (.result v) => s.Answers v
  | .producing r => s.state = .idle ∧ ∀ v, r = some v → s.Answers v
  | .failing | .settingIdle => s.state ≠ .idle
  | .transmit .storeState =>
      s.caller.stage = .awaiting ∧ s.result = none ∧ s.state = .awaitingRegistration
  | .transmit .makeMessage =>
      s.caller.stage = .awaiting ∧ s.result = none ∧ s.state = .awaitingResult
        ∧ s.activeRequest = some s.current.request ∧ (s.connection 0).tokens = 0
  | .transmit (.write n r) =>
      s.caller.stage = .awaiting ∧ s.result = none ∧ s.state = .awaitingResult
        ∧ r = s.current.request ∧ n = some 0 ∧ (s.connection 0).tokens = 0
  | .transmit .resetRequest => s.caller.stage = .awaiting ∧ s.state = .awaitingResult
  | _ => True

structure Inv (s : State) : Prop where
  shared : s.Shared
  caller : s.CallerKnows
  messenger : s.MessengerKnows
  own : s.Own

end State

/-! ### The steps of the threads -/

/-- What a step of `transmit_request` does and how it comes out, whoever makes it. -/
inductive TransmitStep (s : State) (ok : Bool) : Transmit → State × Transmission → Prop
  | storeState : TransmitStep s ok .storeState
      ({ s with state := .awaitingResult }, .goesOn .makeMessage)
  | makeMessage (request : CalculationRequest) (hr : s.activeRequest = some request) :
      TransmitStep s ok .makeMessage
        ({ s with activeRequest := some { request with args := [] } },
          .goesOn (.write s.socket request))
  | write (n : ℕ) (request : CalculationRequest) :
      TransmitStep s ok (.write (some n) request) (s.deliver n request, .goesOn .resetRequest)
  | lose (socket : Option ℕ) (request : CalculationRequest) (hok : ok = false) :
      TransmitStep s ok (.write socket request) (s, .threw)
  | resetRequest : TransmitStep s ok .resetRequest ({ s with activeRequest := none }, .done)

theorem transmitStep_cases {s : State} {ok : Bool} {t : Transmit} {o : State × Transmission}
    (h : s.transmitStep ok t = some o) : TransmitStep s ok t o := by
  cases t with
  | storeState =>
      obtain ⟨_, _, rfl⟩ := Option.map_eq_some_iff.mp h
      exact .storeState
  | makeMessage =>
      obtain ⟨request, hr, rfl⟩ := Option.map_eq_some_iff.mp h
      exact .makeMessage request hr
  | write socket request =>
      rw [State.transmitStep] at h
      split at h
      · obtain ⟨n, rfl, rfl⟩ := Option.map_eq_some_iff.mp h
        exact .write n request
      · rename_i hok
        obtain rfl := Option.some.inj h
        exact .lose socket request (Bool.eq_false_iff.mpr hok)
  | resetRequest =>
      obtain rfl := Option.some.inj h
      exact .resetRequest

/-- What a step of the caller in a steady run does. -/
inductive CallerStep (s : State) : State → Prop
  /-- Move on within a stage, or give up. -/
  | move (c : Caller) (hc : s.caller ≠ .idle) (hstage : c.stage = s.caller.stage)
      (hknows : { s with caller := c }.CallerKnows) : CallerStep s { s with caller := c }
  | check (hc : s.caller = .entered) (hp : s.activeProvider.isSome = true → s.state = .idle) :
      CallerStep s { s with caller := .checked }
  | request (hc : s.caller = .checked) :
      CallerStep s { s with caller := .requested, activeRequest := some s.current.request }
  | clear (hc : s.caller = .requested) : CallerStep s { s with caller := .cleared, result := none }
  | storeState (hc : s.caller = .transmit .storeState) :
      CallerStep s { s with caller := .transmit .makeMessage, state := .awaitingResult }
  | makeMessage (hc : s.caller = .transmit .makeMessage) (request : CalculationRequest)
      (hr : s.activeRequest = some request) :
      CallerStep s { s with
        caller := .transmit (.write s.socket request)
        activeRequest := some { request with args := [] } }
  | write (n : ℕ) (request : CalculationRequest)
      (hc : s.caller = .transmit (.write (some n) request)) :
      CallerStep s { s.deliver n request with caller := .transmit .resetRequest }
  | resetRequest (hc : s.caller = .transmit .resetRequest) :
      CallerStep s { s with caller := .waiting, activeRequest := none }
  | spawn (hc : s.caller = .spawning) :
      CallerStep s { s with caller := .naming, state := .awaitingRegistration }
  | name (p : ProviderInfo) (hc : s.caller = .naming) :
      CallerStep s { s with caller := .pulling, activeProvider := some p }
  | giveUp (hc : s.caller.stage = .launching) (hp : s.activeProvider.isSome = true) :
      CallerStep s { s with caller := .idle }
  | start (p : ProviderInfo) (hc : s.caller = .starting) (hp : s.activeProvider = some p) :
      CallerStep s { s with caller := .started, spawned := s.spawned ++ [p.pid] }
  | consume (r : Option Dynamic) (hc : s.caller = .waiting) (hr : s.result = some r) :
      CallerStep s { s with caller := .consumed r, result := none }
  | finish (v : Dynamic) (hc : s.caller = .consumed (some v)) :
      CallerStep s { s with
        caller := .idle
        returned := s.returned ++ [(s.calls.length - 1, v)] }

theorem callerStep_cases {s s' : State} {ok : Bool} {pid : Bytes}
    (h : s.callerStep ok pid = some s') (hok : Steady s (.caller ok pid))
    (hi : s.CallerKnows) : CallerStep s s' := by
  cases hc : s.caller with
  | idle => simp [State.callerStep, hc] at h
  | entered =>
      simp only [State.callerStep, hc] at h
      split at h
      · rename_i p hp
        split at h
        · obtain rfl := Option.some.inj h
          exact .move .idle (by simp [hc]) (by simp [hc, Caller.stage]) trivial
        · rename_i hs
          obtain rfl := Option.some.inj h
          exact .check hc fun _ => by simp_all
      · rename_i hp
        obtain rfl := Option.some.inj h
        exact .check hc (by simp [hp])
  | checked =>
      simp only [State.callerStep, hc] at h
      obtain rfl := Option.some.inj h
      exact .request hc
  | requested =>
      simp only [State.callerStep, hc] at h
      obtain rfl := Option.some.inj h
      exact .clear hc
  | cleared =>
      simp only [State.CallerKnows, hc] at hi
      simp only [State.callerStep, hc] at h
      split at h
      · rename_i p hp
        obtain rfl := Option.some.inj h
        exact .move _ (by simp [hc]) (by simp [hc, Caller.stage]) ⟨hi, by simp [hp]⟩
      · rename_i hp
        obtain rfl := Option.some.inj h
        exact .move _ (by simp [hc]) (by simp [hc, Caller.stage]) ⟨hi, hp⟩
  | transmit t =>
      simp only [State.callerStep, hc] at h
      obtain ⟨o, ho, rfl⟩ := Option.map_eq_some_iff.mp h
      cases transmitStep_cases ho with
      | storeState => exact .storeState hc
      | makeMessage request hr => exact .makeMessage hc request hr
      | write n request => exact .write n request hc
      | lose socket request hlost =>
          have hok : ok = true := hok (by simp [hc, Caller.fragile])
          simp [hlost] at hok
      | resetRequest => exact .resetRequest hc
  | stopping => simp [State.CallerKnows, hc] at hi
  | spawning =>
      simp only [State.callerStep, hc] at h
      obtain rfl := Option.some.inj h
      exact .spawn hc
  | naming =>
      simp only [State.callerStep, hc] at h
      obtain rfl := Option.some.inj h
      exact .name _ hc
  | pulling =>
      simp only [State.CallerKnows, hc] at hi
      simp only [State.callerStep, hc] at h
      obtain rfl := Option.some.inj h
      cases ok with
      | true => exact .move .starting (by simp [hc]) (by simp [hc, Caller.stage]) hi
      | false => exact .giveUp (by simp [hc, Caller.stage]) hi.2
  | starting =>
      simp only [State.CallerKnows, hc] at hi
      simp only [State.callerStep, hc] at h
      cases ok with
      | true =>
          cases hp : s.activeProvider with
          | none => simp [hp] at h
          | some p =>
              simp only [hp, if_true, Option.map_some, Option.some.injEq] at h
              obtain rfl := h
              simpa [hp] using CallerStep.start p hc hp
      | false =>
          simp only [Bool.false_eq_true, if_false, Option.some.injEq] at h
          obtain rfl := h
          exact .giveUp (by simp [hc, Caller.stage]) hi.2
  | started =>
      have hok : ok = true := hok (by simp [hc, Caller.fragile])
      simp only [State.callerStep, hc, hok] at h
      obtain rfl := Option.some.inj h
      exact .move .waiting (by simp [hc]) (by simp [hc, Caller.stage]) trivial
  | waiting =>
      simp only [State.callerStep, hc] at h
      cases hr : s.result with
      | none => simp [hr] at h
      | some r =>
          simp only [hr, Option.map_some, Option.some.injEq] at h
          obtain rfl := h
          exact .consume r hc hr
  | consumed r =>
      cases r with
      | none =>
          simp only [State.callerStep, hc] at h
          obtain rfl := Option.some.inj h
          exact .move .idle (by simp [hc]) (by simp [hc, Caller.stage]) trivial
      | some v =>
          simp only [State.callerStep, hc] at h
          split at h
          · obtain rfl := Option.some.inj h
            exact .move .idle (by simp [hc]) (by simp [hc, Caller.stage]) trivial
          · obtain rfl := Option.some.inj h
            exact .finish v hc

/-- What a step of the message thread does. -/
inductive MessengerStep (s : State) : State → Prop
  | outer (hm : s.messenger = .outer) :
      MessengerStep s { s with messenger := .accepting, socket := none }
  | read (n : ℕ) (m : ProviderMessage) (rest : List ProviderMessage)
      (hm : s.messenger = .reading) (hn : s.socket = some n)
      (hin : (s.connection n).inbox = m :: rest) :
      MessengerStep s { s with
        messenger := .handling m
        connection := Function.update s.connection n { s.connection n with inbox := rest } }
  /-- A read or a write fails. -/
  | lose (hm : s.messenger.live = true) : MessengerStep s { s with messenger := .caught }
  | ignore (m : ProviderMessage) (hm : s.messenger = .handling m) (ha : isAnswer m = false) :
      MessengerStep s { s with messenger := .reading }
  | register (r : Ipc.ProviderRegistration) (hm : s.messenger = .handling (.registration r))
      (hs : s.state = .awaitingRegistration) :
      MessengerStep s { s with messenger := .transmit .storeState }
  | answer (m : ProviderMessage) (r : Option Dynamic) (hm : s.messenger = .handling m)
      (ha : isAnswer m = true) (hr : ∀ v, r = some v → m = .result v) :
      MessengerStep s { s with messenger := .producing r, state := .idle }
  | storeState (hm : s.messenger = .transmit .storeState) :
      MessengerStep s { s with messenger := .transmit .makeMessage, state := .awaitingResult }
  | makeMessage (hm : s.messenger = .transmit .makeMessage) (request : CalculationRequest)
      (hr : s.activeRequest = some request) :
      MessengerStep s { s with
        messenger := .transmit (.write s.socket request)
        activeRequest := some { request with args := [] } }
  | write (n : ℕ) (request : CalculationRequest)
      (hm : s.messenger = .transmit (.write (some n) request)) :
      MessengerStep s { s.deliver n request with messenger := .transmit .resetRequest }
  | resetRequest (hm : s.messenger = .transmit .resetRequest) :
      MessengerStep s { s with messenger := .reading, activeRequest := none }
  | produce (r : Option Dynamic) (hm : s.messenger = .producing r) :
      MessengerStep s { s with messenger := .reading, result := some r }
  | recover (hm : s.messenger = .caught) : MessengerStep s { s with messenger := .outer }
  | fail (hm : s.messenger = .caught) (hs : s.state ≠ .idle) :
      MessengerStep s { s with messenger := .failing }
  | produceNone (hm : s.messenger = .failing) :
      MessengerStep s { s with messenger := .settingIdle, result := some none }
  | settle (hm : s.messenger = .settingIdle) :
      MessengerStep s { s with messenger := .outer, state := .idle }

theorem messengerStep_cases {s s' : State} {ok : Bool} (h : s.messengerStep ok = some s') :
    MessengerStep s s' := by
  cases hm : s.messenger with
  | outer =>
      simp only [State.messengerStep, hm] at h
      split at h
      · cases h
      · obtain rfl := Option.some.inj h
        exact .outer hm
  | accepting => simp [State.messengerStep, hm] at h
  | reading =>
      simp only [State.messengerStep, hm] at h
      cases ok with
      | true =>
          simp only [if_true] at h
          obtain ⟨n, hn, h⟩ := Option.bind_eq_some_iff.mp h
          split at h
          · cases h
          · rename_i m rest hin
            obtain rfl := Option.some.inj h
            exact .read n m rest hm hn hin
      | false =>
          simp only [Bool.false_eq_true, if_false] at h
          obtain rfl := Option.some.inj h
          exact .lose (by simp [hm, Messenger.live])
  | handling m =>
      simp only [State.messengerStep, hm] at h
      cases m with
      | registration r =>
          have hignore := MessengerStep.ignore _ hm rfl
          simp only at h
          split at h
          · rename_i hs
            split at h
            · split at h
              · obtain rfl := Option.some.inj h
                exact .register r hm hs
              · obtain rfl := Option.some.inj h
                exact hignore
            · cases h
          · obtain rfl := Option.some.inj h
            exact hignore
      | result v =>
          obtain rfl := Option.some.inj h
          exact .answer _ _ hm rfl fun v' hv => by rw [Option.some.inj hv]
      | failure f =>
          obtain rfl := Option.some.inj h
          exact .answer _ _ hm rfl fun v' hv => by simp at hv
      | progress | pong =>
          obtain rfl := Option.some.inj h
          exact .ignore _ hm rfl
  | transmit t =>
      simp only [State.messengerStep, hm] at h
      obtain ⟨o, ho, rfl⟩ := Option.map_eq_some_iff.mp h
      cases transmitStep_cases ho with
      | storeState => exact .storeState hm
      | makeMessage request hr => exact .makeMessage hm request hr
      | write n request => exact .write n request hm
      | lose socket request _ => exact .lose (by simp [hm, Messenger.live])
      | resetRequest => exact .resetRequest hm
  | producing r =>
      simp only [State.messengerStep, hm] at h
      obtain rfl := Option.some.inj h
      exact .produce r hm
  | caught =>
      simp only [State.messengerStep, hm] at h
      split at h
      · rename_i hs
        obtain rfl := Option.some.inj h
        exact .fail hm hs.1
      · obtain rfl := Option.some.inj h
        exact .recover hm
  | failing =>
      simp only [State.messengerStep, hm] at h
      obtain rfl := Option.some.inj h
      exact .produceNone hm
  | settingIdle =>
      simp only [State.messengerStep, hm] at h
      obtain rfl := Option.some.inj h
      exact .settle hm

namespace State

theorem tokens_eq_zero_iff (s : State) : s.tokens = 0 ↔
    (s.messenger.live = true → (s.connection 0).tokens = 0) ∧ s.messenger.tokens = 0
      ∧ s.result = none := by
  cases hl : s.messenger.live <;> cases hr : s.result <;>
    simp [tokens, hl, hr]

theorem currentCall_of_ne_idle {s : State} (h : s.caller ≠ .idle) :
    s.currentCall = some (s.calls.length - 1) := by
  unfold currentCall
  split
  · contradiction
  · rfl

/-- A message that is transmitted during a call. -/
theorem deliver_eq {s : State} (h : s.caller ≠ .idle) (n : ℕ) (request : CalculationRequest) :
    s.deliver n request = { s with
      transmitted := s.transmitted ++ [⟨some (s.calls.length - 1), request⟩]
      connection := Function.update s.connection n
        { s.connection n with
          unanswered := (s.connection n).unanswered ++ [s.transmitted.length] } } := by
  rw [deliver, currentCall_of_ne_idle h]

/-- Outside of a call's wait no result is underway. -/
theorem Shared.tokens_eq_zero {s : State} (h : s.Shared) (ht : s.caller.stage ≠ .transmitting)
    (ha : s.caller.stage ≠ .awaiting) : s.tokens = 0 := by
  by_contra hne
  rcases h.expected (Nat.one_le_iff_ne_zero.mpr hne) with he | he <;> contradiction

end State

section
open State
variable {s : State}

theorem last_move (h : s.Shared) (c : Caller) (hc : s.caller ≠ .idle) (k : ℕ)
    (hk : { s with caller := c }.currentCall = some k) :
    k = s.calls.length - 1 ∧ s.calls[k]? = some s.current := by
  have hlast := h.last _ (currentCall_of_ne_idle hc)
  by_cases hidle : c = .idle
  · simp [currentCall, hidle] at hk
  · obtain rfl := Option.some.inj ((currentCall_of_ne_idle hidle).symm.trans hk)
    exact hlast

/-- The caller stays within its stage. -/
theorem shared_move (h : s.Shared) (c : Caller) (hc : s.caller ≠ .idle)
    (hstage : c.stage = s.caller.stage) : { s with caller := c }.Shared :=
  { h with
    started := by simp only [hstage]; exact h.started
    unnamed := by simp only [hstage]; exact h.unnamed
    unregistered := by simp only [hstage]; exact h.unregistered
    busy := by simp only [hstage]; exact h.busy
    registering := by simp only [hstage]; exact h.registering
    ready := by simp only [hstage]; exact h.ready
    expected := by simp only [hstage]; exact h.expected
    last := last_move h c hc }

theorem unanswered_append {l : List Transmitted} {u : List ℕ} {k : ℕ} {r : CalculationRequest}
    (h : ∀ i ∈ u, ∃ f, l[i]? = some f ∧ f.call = some k) :
    ∀ i ∈ u ++ [l.length], ∃ f, (l ++ [⟨some k, r⟩])[i]? = some f ∧ f.call = some k := by
  intro i hi
  rcases List.mem_append.mp hi with hi | hi
  · obtain ⟨f, hf, hk⟩ := h i hi
    exact ⟨f, by rw [List.getElem?_append_left (List.getElem?_eq_some_iff.mp hf).1, hf], hk⟩
  · obtain rfl := List.mem_singleton.mp hi
    exact ⟨⟨some k, r⟩, by simp, rfl⟩

/-- A value keeps its origin when more messages are transmitted and answered. -/
theorem answers_mono {s' : State} {v : Dynamic} (ts : List Transmitted)
    (as : List (ℕ × ProviderMessage)) (ht : s'.transmitted = s.transmitted ++ ts)
    (ha : s'.answered = s.answered ++ as) (hc : s'.calls = s.calls) (h : s.Answers v) :
    s'.Answers v := by
  obtain ⟨i, f, hi, hf, hk⟩ := h
  refine ⟨i, f, ?_, ?_, ?_⟩
  · rw [ha]
    exact List.mem_append_left _ hi
  · rw [ht, List.getElem?_append_left (List.getElem?_eq_some_iff.mp hf).1, hf]
  · rw [hc, hk]

/-! ### The message thread and the network -/

theorem providers_of_live (h : s.Shared) (hl : s.messenger.live = true) :
    s.nextConnection = 1 ∧ s.spawned = [] := by
  have hs := h.live hl
  have h1 := h.one
  rcases h.socket with hn | ⟨-, hn⟩
  · simp [hn] at hs
  · simp only [providers, hn] at h1
    exact ⟨hn, List.eq_nil_of_length_eq_zero (by omega)⟩

theorem tokens_moveMessenger (m : Messenger) (hlive : m.live = true → s.messenger.live = true)
    (ht : m.tokens ≤ s.messenger.tokens) : { s with messenger := m }.tokens ≤ s.tokens := by
  simp only [tokens]
  split <;> split <;> simp_all <;> omega

theorem shared_moveMessenger (h : s.Shared) (m : Messenger)
    (hset : s.state ≠ .idle → s.messenger ≠ .settingIdle)
    (hlive : m.live = true → s.messenger.live = true) (ht : m.tokens ≤ s.messenger.tokens)
    (hun : s.nextConnection = 0 → m ≠ .caught ∧ m ≠ .settingIdle) :
    { s with messenger := m }.Shared :=
  have htokens := tokens_moveMessenger m hlive ht
  { h with
    unconnected := fun h0 => by
      obtain ⟨hl, htok, -, -, hconn⟩ := h.unconnected h0
      refine ⟨?_, Nat.le_zero.mp (htok ▸ ht), (hun h0).1, (hun h0).2, hconn⟩
      simpa [hl] using hlive
    live := fun hl => h.live (hlive hl)
    busy := fun hs _ hp => h.busy hs (hset hs) hp
    oneToken := htokens.trans h.oneToken
    expected := fun h1 => h.expected (h1.trans htokens)
    unanswered := fun hl => h.unanswered (hlive hl)
    inbox := fun hl => h.inbox (hlive hl) }

theorem shared_setIdle (h : s.Shared) : { s with state := .idle }.Shared :=
  { h with
    unnamed := fun _ => .inl rfl
    busy := fun hs => absurd rfl hs
    registering := fun hs => by simp at hs
    ready := fun _ => rfl }

theorem connected_of_tokens (h : s.Shared) (ht : s.messenger.tokens ≠ 0) :
    s.nextConnection = 1 ∧ s.spawned = [] := by
  have h0 : s.nextConnection ≠ 0 := fun h0 => ht (h.unconnected h0).2.1
  have hone := h.one
  simp only [providers] at hone
  exact ⟨by omega, List.eq_nil_of_length_eq_zero (by omega)⟩

theorem tokens_produce (h : s.Shared) (m : Messenger) (r : Option Dynamic)
    (hlive : m.live = true → s.messenger.live = true) (hm : m.tokens = 0)
    (ht : s.messenger.tokens = 1) :
    { s with messenger := m, result := some r }.tokens = s.tokens := by
  have hone := h.oneToken
  simp only [tokens, ht, hm] at hone ⊢
  cases hl : m.live <;> cases hl' : s.messenger.live <;> cases hres : s.result <;> simp_all

theorem shared_produce (h : s.Shared) (m : Messenger) (r : Option Dynamic)
    (hbusy : s.state ≠ .idle → m = .settingIdle)
    (hlive : m.live = true → s.messenger.live = true) (hm : m.tokens = 0)
    (ht : s.messenger.tokens = 1) (hr : ∀ v, r = some v → s.Answers v) :
    { s with messenger := m, result := some r }.Shared :=
  have hconn := connected_of_tokens h (by simp [ht])
  have htokens := tokens_produce h m r hlive hm ht
  { h with
    unconnected := fun h0 => by simp [hconn.1] at h0
    unregistered := fun hs => absurd hconn.2 hs
    live := fun hl => h.live (hlive hl)
    busy := fun hs hm' => absurd (hbusy hs) hm'
    oneToken := htokens.le.trans h.oneToken
    expected := fun h1 => h.expected (h1.trans htokens.le)
    unanswered := fun hl => h.unanswered (hlive hl)
    inbox := fun hl => h.inbox (hlive hl)
    slot := fun v hv => hr v (Option.some.inj hv) }

theorem shared_fail (h : s.Shared) (hm : s.messenger = .caught) (hs : s.state ≠ .idle) :
    { s with messenger := .failing }.Shared :=
  have hone : 1 ≤ s.providers := by
    by_contra h0
    have hn : s.nextConnection = 0 := by simp only [providers] at h0; omega
    exact (h.unconnected hn).2.2.1 hm
  have hbusy := h.busy hs (by simp [hm]) hone
  { h with
    unconnected := fun h0 => absurd hm (h.unconnected h0).2.2.1
    live := fun hl => by simp [Messenger.live] at hl
    busy := fun _ _ _ => hbusy
    oneToken := by simp [tokens, Messenger.live, Messenger.tokens, hbusy.1]
    expected := fun _ => hbusy.2
    unanswered := fun hl => by simp [Messenger.live] at hl
    inbox := fun hl => by simp [Messenger.live] at hl }

/-- The request is changed when nobody waits for a registration. -/
theorem shared_setRequest (h : s.Shared) (r : Option CalculationRequest)
    (hs : s.state = .awaitingRegistration → s.caller.stage ≠ .awaiting) :
    { s with activeRequest := r }.Shared :=
  { h with
    registering := fun hreg =>
      ⟨(h.registering hreg).1, (h.registering hreg).2.1, fun ha => absurd ha (hs hreg)⟩ }

theorem shared_awaitResult (h : s.Shared) (ha : s.caller.stage = .awaiting)
    (hres : s.result = none) (hp : s.activeProvider.isSome = true) :
    { s with state := .awaitingResult }.Shared :=
  { h with
    unnamed := fun hn => absurd hn (Option.isSome_iff_ne_none.mp hp)
    busy := fun _ _ _ => ⟨hres, .inr ha⟩
    registering := fun hs => by simp at hs
    ready := fun hr => absurd (ha.symm.trans hr) (by simp) }

/-- The message that is read. -/
theorem connection_tokens_read {m : ProviderMessage} {rest : List ProviderMessage}
    (hin : (s.connection 0).inbox = m :: rest) :
    (s.connection 0).tokens = (Messenger.handling m).tokens +
      Connection.tokens { s.connection 0 with inbox := rest } := by
  simp only [Connection.tokens, hin, List.filter_cons, Messenger.tokens]
  split
  · rw [List.length_cons]
    omega
  · omega

theorem tokens_read {m : ProviderMessage} {rest : List ProviderMessage}
    (hm : s.messenger = .reading) (hin : (s.connection 0).inbox = m :: rest) :
    State.tokens { s with
      messenger := .handling m
      connection := Function.update s.connection 0
        { s.connection 0 with inbox := rest } } = s.tokens := by
  simp only [tokens, hm, Messenger.live, Function.update_self, connection_tokens_read hin]
  simp only [if_true, Messenger.tokens]
  omega

theorem shared_read (h : s.Shared) {m : ProviderMessage} {rest : List ProviderMessage}
    (hm : s.messenger = .reading) (hin : (s.connection 0).inbox = m :: rest) :
    { s with
      messenger := .handling m
      connection := Function.update s.connection 0
        { s.connection 0 with inbox := rest } }.Shared :=
  have hlive : s.messenger.live = true := by simp [hm, Messenger.live]
  have hconn := providers_of_live h hlive
  have hall := tokens_read hm hin
  { h with
    unconnected := fun h0 => by simp [hconn.1] at h0
    live := fun _ => h.live hlive
    busy := fun hs _ hp => h.busy hs (by simp [hm]) hp
    registering := fun hs => by
      obtain ⟨ht, hc, hr⟩ := h.registering hs
      rw [connection_tokens_read hin, Nat.add_eq_zero_iff] at hc
      exact ⟨ht, by simpa using hc.2, hr⟩
    oneToken := hall.le.trans h.oneToken
    expected := fun h1 => h.expected (h1.trans hall.le)
    unanswered := fun _ => by simpa using h.unanswered hlive
    inbox := fun _ v hv => h.inbox hlive v (by
      rw [hin]
      exact List.mem_cons_of_mem _ (by simpa using hv)) }

/-- A FUNCTION message reaches the provider when no other result is underway. -/
theorem shared_deliver (h : s.Shared) (request : CalculationRequest) (hn : s.nextConnection = 1)
    (hst : s.caller.stage = .transmitting ∨ s.caller.stage = .awaiting)
    (hreg : s.state ≠ .awaitingRegistration) (ht : s.messenger.live = true → s.tokens = 0) :
    (s.deliver 0 request).Shared :=
  have hidle : s.caller ≠ .idle := fun hc => by simp [hc, Caller.stage] at hst
  have htransmitted : (s.deliver 0 request).transmitted =
      s.transmitted ++ [⟨some (s.calls.length - 1), request⟩] := by rw [deliver_eq hidle]
  have hanswers : ∀ v, s.Answers v → (s.deliver 0 request).Answers v := fun v =>
    answers_mono _ [] htransmitted (List.append_nil _).symm rfl
  { h with
    unconnected := fun h0 => absurd (hn.symm.trans h0) (by simp)
    registering := fun hs => absurd hs hreg
    oneToken := by
      by_cases hl : s.messenger.live = true
      · obtain ⟨hconn, hm, hres⟩ := s.tokens_eq_zero_iff.mp (ht hl)
        have hempty := hconn hl
        simp only [Connection.tokens] at hempty
        simp [deliver, tokens, Connection.tokens, hl, hm, hres]
        omega
      · have hone := h.oneToken
        simp only [tokens, hl] at hone
        simp only [deliver, tokens, hl]
        exact hone
    expected := fun _ => hst
    unanswered := fun hl => by
      rw [htransmitted]
      simp only [deliver, Function.update_self]
      exact unanswered_append (h.unanswered hl)
    inbox := fun hl v hv => hanswers v (h.inbox hl v (by simpa [deliver] using hv))
    slot := fun v hv => hanswers v (h.slot v hv) }

/-! ### The caller's steps -/

section
variable (h : s.Shared)
include h

theorem shared_clearResult : { s with result := none }.Shared :=
  have htokens : { s with result := none }.tokens ≤ s.tokens := by
    simp only [tokens, Option.isSome_none]
    split <;> simp
  { h with
    unregistered := fun hs => ⟨(h.unregistered hs).1, rfl⟩
    busy := fun hs hm hp => ⟨rfl, (h.busy hs hm hp).2⟩
    oneToken := htokens.trans h.oneToken
    expected := fun h1 => h.expected (h1.trans htokens)
    slot := fun v hv => by simp at hv }

theorem shared_setProvider (p : ProviderInfo) : { s with activeProvider := some p }.Shared :=
  { h with
    started := fun hp => ⟨rfl, (h.started hp).2⟩
    unnamed := fun hn => by simp at hn }

theorem shared_check (hc : s.caller = .entered)
    (hp : s.activeProvider.isSome = true → s.state = .idle) :
    { s with caller := .checked }.Shared :=
  have hst : s.caller.stage = .out := by simp [hc, Caller.stage]
  have hidle : s.state = .idle := by
    cases ha : s.activeProvider with
    | none => simpa [hst] using h.unnamed ha
    | some p => exact hp (by simp [ha])
  { h with
    started := fun hone => ⟨(h.started hone).1, by simp [Caller.stage]⟩
    unnamed := fun _ => .inl hidle
    unregistered := fun hs => absurd (h.unregistered hs).1 (by simp [hst])
    busy := fun hbusy => absurd hidle hbusy
    registering := fun hreg => absurd (hidle.symm.trans hreg) (by simp)
    ready := fun _ => hidle
    expected := fun h1 => absurd (h.expected h1) (by simp [hst])
    last := last_move h .checked (by simp [hc]) }

theorem shared_storeState (hc : s.caller = .transmit .storeState)
    (hp : s.activeProvider.isSome = true) :
    { s with caller := .transmit .makeMessage, state := .awaitingResult }.Shared :=
  have hst : s.caller.stage = .ready := by simp [hc, Caller.stage]
  have hnone := (s.tokens_eq_zero_iff.mp (h.tokens_eq_zero (by simp [hst]) (by simp [hst]))).2.2
  { h with
    started := fun hone => ⟨hp, by simp [Caller.stage]⟩
    unnamed := fun hn => absurd hn (Option.isSome_iff_ne_none.mp hp)
    unregistered := fun hs => absurd (h.unregistered hs).1 (by simp [hst])
    busy := fun _ _ _ => ⟨hnone, .inl rfl⟩
    registering := fun hs => by simp at hs
    ready := fun hs => by simp [Caller.stage] at hs
    expected := fun _ => .inl rfl
    last := last_move h (.transmit .makeMessage) (by simp [hc]) }

theorem shared_sent (hc : s.caller = .transmit .resetRequest) :
    { s with caller := .waiting }.Shared :=
  have hst : s.caller.stage = .transmitting := by simp [hc, Caller.stage]
  { h with
    started := fun hone => ⟨(h.started hone).1, by simp [Caller.stage]⟩
    unnamed := fun hn => .inl (by simpa [hst] using h.unnamed hn)
    unregistered := fun hs => absurd (h.unregistered hs).1 (by simp [hst])
    busy := fun hs hm hp => ⟨(h.busy hs hm hp).1, .inr rfl⟩
    registering := fun hs => absurd hst (h.registering hs).1
    ready := fun hs => by simp [Caller.stage] at hs
    expected := fun _ => .inr rfl
    last := last_move h .waiting (by simp [hc]) }

theorem shared_spawn (hc : s.caller = .spawning) (hp : s.activeProvider = none) :
    { s with caller := .naming, state := .awaitingRegistration }.Shared :=
  have hst : s.caller.stage = .ready := by simp [hc, Caller.stage]
  have hnone : ¬ 1 ≤ s.providers := fun hone => by simpa [hp] using (h.started hone).1
  have hempty : s.connection 0 = {} := by
    have h0 : s.nextConnection = 0 := by simp only [providers] at hnone; omega
    exact (h.unconnected h0).2.2.2.2
  { h with
    started := fun hone => absurd hone hnone
    unnamed := fun _ => .inr rfl
    unregistered := fun hs => absurd (h.unregistered hs).1 (by simp [hst])
    busy := fun _ _ hone => absurd hone hnone
    registering := fun _ => by simp [Caller.stage, hempty, Connection.tokens]
    ready := fun hs => by simp [Caller.stage] at hs
    expected := fun h1 => absurd (h.expected h1) (by simp [hst])
    last := last_move h .naming (by simp [hc]) }

theorem shared_giveUp (hst : s.caller.stage = .launching) (hp : s.activeProvider.isSome = true) :
    { s with caller := .idle }.Shared :=
  have hnone : ¬ 1 ≤ s.providers := fun hone => (h.started hone).2 hst
  { h with
    started := fun hone => absurd hone hnone
    unnamed := fun hn => absurd hn (Option.isSome_iff_ne_none.mp hp)
    unregistered := fun hs => absurd (h.unregistered hs).1 (by simp [hst])
    busy := fun _ _ hone => absurd hone hnone
    registering := fun hs =>
      ⟨by simp [Caller.stage], (h.registering hs).2.1, by simp [Caller.stage]⟩
    ready := fun hs => by simp [Caller.stage] at hs
    expected := fun h1 => absurd (h.expected h1) (by simp [hst])
    last := fun k hk => by simp [currentCall] at hk }

theorem shared_start (hc : s.caller = .starting) (p : ProviderInfo)
    (hp : s.activeProvider = some p) (hr : s.activeRequest = some s.current.request) :
    { s with caller := .started, spawned := s.spawned ++ [p.pid] }.Shared :=
  have hst : s.caller.stage = .launching := by simp [hc, Caller.stage]
  have hnone : s.providers = 0 := by
    by_contra hne
    exact (h.started (Nat.one_le_iff_ne_zero.mpr hne)).2 hst
  have htokens := h.tokens_eq_zero (by simp [hst]) (by simp [hst])
  have hresult := (s.tokens_eq_zero_iff.mp htokens).2.2
  { h with
    one := by
      simp only [providers] at hnone
      simp only [providers, List.length_append, List.length_singleton]
      omega
    started := fun _ => ⟨by simp [hp], by simp [Caller.stage]⟩
    unnamed := fun hn => by simp [hp] at hn
    unregistered := fun _ => ⟨rfl, hresult⟩
    busy := fun _ _ _ => ⟨hresult, .inr rfl⟩
    registering := fun hs => ⟨by simp [Caller.stage], (h.registering hs).2.1, fun _ => hr⟩
    ready := fun hs => by simp [Caller.stage] at hs
    expected := fun h1 => absurd htokens (Nat.one_le_iff_ne_zero.mp h1)
    last := last_move h .started (by simp [hc]) }

theorem shared_consume (hc : s.caller = .waiting) (r : Option Dynamic)
    (hr : s.result = some r) : { s with caller := .consumed r, result := none }.Shared :=
  have hst : s.caller.stage = .awaiting := by simp [hc, Caller.stage]
  have htokens : { s with caller := .consumed r, result := none }.tokens = 0 := by
    have hone := h.oneToken
    simp only [tokens, hr, Option.isSome_some, if_true] at hone
    simp only [tokens, Option.isSome_none, Bool.false_eq_true, if_false]
    omega
  { h with
    started := fun hone => ⟨(h.started hone).1, by simp [Caller.stage]⟩
    unnamed := fun hn => .inl (by simpa [hst] using h.unnamed hn)
    unregistered := fun hs => absurd (h.unregistered hs).2 (by simp [hr])
    busy := fun hs hm hp => absurd (h.busy hs hm hp).1 (by simp [hr])
    registering := fun hs =>
      ⟨by simp [Caller.stage], (h.registering hs).2.1, by simp [Caller.stage]⟩
    ready := fun hs => by simp [Caller.stage] at hs
    oneToken := by omega
    expected := fun h1 => absurd htokens (Nat.one_le_iff_ne_zero.mp h1)
    last := last_move h (.consumed r) (by simp [hc])
    slot := fun v hv => by simp at hv }

end

theorem callerStep_shared {s' : State} (hs : CallerStep s s') (hi : s.Inv) : s'.Shared := by
  obtain ⟨h, hcaller, -, -⟩ := hi
  cases hs with
  | move c hc hstage hknows => exact shared_move h c hc hstage
  | check hc hp => exact shared_check h hc hp
  | request hc =>
      have hrequest := shared_setRequest h (some s.current.request) (by simp [hc, Caller.stage])
      exact shared_move hrequest .requested (by simp [hc]) (by simp [hc, Caller.stage])
  | clear hc =>
      exact shared_move (shared_clearResult h) .cleared (by simp [hc]) (by simp [hc, Caller.stage])
  | storeState hc =>
      simp only [CallerKnows, hc] at hcaller
      exact shared_storeState h hc hcaller.2
  | makeMessage hc r hr =>
      have hrequest := shared_setRequest h (some { r with args := [] })
        (by simp [hc, Caller.stage])
      exact shared_move hrequest _ (by simp [hc]) (by simp [hc, Caller.stage])
  | write n r hc =>
      simp only [CallerKnows, hc] at hcaller
      obtain ⟨-, hn, hlive⟩ := hcaller
      obtain ⟨rfl, hone⟩ : n = 0 ∧ s.nextConnection = 1 := by simpa using hn
      have hst : s.caller.stage = .transmitting := by simp [hc, Caller.stage]
      have hdeliver := shared_deliver h r hone (.inl hst) (fun hs => (h.registering hs).1 hst) hlive
      exact shared_move hdeliver (.transmit .resetRequest) (by simp [deliver, hc])
        (by simp [deliver, hc, Caller.stage])
  | resetRequest hc =>
      have hrequest := shared_setRequest h none (by simp [hc, Caller.stage])
      exact shared_sent hrequest hc
  | spawn hc =>
      simp only [CallerKnows, hc] at hcaller
      exact shared_spawn h hc hcaller.2
  | name p hc =>
      have hprovider := shared_setProvider h p
      exact shared_move hprovider .pulling (by simp [hc]) (by simp [hc, Caller.stage])
  | giveUp hst hp => exact shared_giveUp h hst hp
  | start p hc hp =>
      simp only [CallerKnows, hc] at hcaller
      exact shared_start h hc p hp hcaller.1
  | consume r hc hr => exact shared_consume h hc r hr
  | finish v hc =>
      have hmove := shared_move h .idle (by simp [hc]) (by simp [hc, Caller.stage])
      exact { hmove with }

theorem callerStep_callerKnows {s' : State} (hs : CallerStep s s') (hi : s.Inv) :
    s'.CallerKnows := by
  obtain ⟨h, hcaller, -, -⟩ := hi
  cases hs with
  | move c hc hstage hknows => exact hknows
  | check hc hp => trivial
  | request hc => rfl
  | clear hc =>
      simp only [CallerKnows, hc] at hcaller
      exact hcaller
  | storeState hc =>
      have hst : s.caller.stage = .ready := by simp [hc, Caller.stage]
      simp only [CallerKnows, hc] at hcaller
      exact ⟨hcaller.1, fun _ => h.tokens_eq_zero (by simp [hst]) (by simp [hst])⟩
  | makeMessage hc r hr =>
      simp only [CallerKnows, hc] at hcaller
      obtain rfl := Option.some.inj (hr.symm.trans hcaller.1)
      exact ⟨rfl, h.socket, hcaller.2⟩
  | write n r hc => trivial
  | resetRequest hc => trivial
  | spawn hc =>
      simp only [CallerKnows, hc] at hcaller
      exact hcaller
  | name p hc =>
      simp only [CallerKnows, hc] at hcaller
      exact ⟨hcaller.1, rfl⟩
  | giveUp hc hp => trivial
  | start p hc hp => trivial
  | consume r hc hr =>
      cases r with
      | none => trivial
      | some v => exact h.slot v hr
  | finish v hc => trivial

/-- Only while the call waits does the message thread transmit. -/
theorem not_transmit (hm : s.MessengerKnows) (hst : s.caller.stage ≠ .awaiting) (t : Transmit) :
    s.messenger ≠ .transmit t := by
  intro ht
  cases t <;> simp only [MessengerKnows, ht] at hm <;> exact hst hm.1

/-- What the message thread knows outside of `transmit_request` is about the state and about
where a value comes from. -/
theorem messengerKnows_frame {s' : State} (hm : s.MessengerKnows)
    (hnot : ∀ t, s.messenger ≠ .transmit t) (heq : s'.messenger = s.messenger)
    (hstate : s'.state = s.state ∨ (s'.state ≠ .idle ∧ s.messenger.tokens = 0))
    (hanswers : ∀ v, s.Answers v → s'.Answers v) : s'.MessengerKnows := by
  unfold MessengerKnows at hm ⊢
  rw [heq]
  split at hm
  case h_1 v hv => exact hanswers v hm
  case h_2 r hr =>
      rcases hstate with hstate | ⟨-, htokens⟩
      · exact ⟨hstate.trans hm.1, fun v hv => hanswers v (hm.2 v hv)⟩
      · simp [hr, Messenger.tokens] at htokens
  all_goals simp_all
  all_goals grind

theorem callerStep_messengerKnows {s' : State} (hs : CallerStep s s') (hi : s.Inv) :
    s'.MessengerKnows := by
  obtain ⟨h, hcaller, hm, -⟩ := hi
  have hsame : s.caller.stage ≠ .awaiting → s'.messenger = s.messenger → s'.state = s.state →
      (∀ v, s.Answers v → s'.Answers v) → s'.MessengerKnows := fun hst heq hstate hanswers =>
    messengerKnows_frame hm (not_transmit hm hst) heq (.inl hstate) hanswers
  cases hs with
  | move c hc hstage hknows =>
      unfold MessengerKnows at hm ⊢
      simp only [hstage]
      exact hm
  | check hc => exact hsame (by simp [hc, Caller.stage]) rfl rfl fun v hv => hv
  | request hc => exact hsame (by simp [hc, Caller.stage]) rfl rfl fun v hv => hv
  | clear hc => exact hsame (by simp [hc, Caller.stage]) rfl rfl fun v hv => hv
  | makeMessage hc => exact hsame (by simp [hc, Caller.stage]) rfl rfl fun v hv => hv
  | resetRequest hc => exact hsame (by simp [hc, Caller.stage]) rfl rfl fun v hv => hv
  | name p hc => exact hsame (by simp [hc, Caller.stage]) rfl rfl fun v hv => hv
  | giveUp hc => exact hsame (by simp [hc]) rfl rfl fun v hv => hv
  | start p hc => exact hsame (by simp [hc, Caller.stage]) rfl rfl fun v hv => hv
  | finish v hc => exact hsame (by simp [hc, Caller.stage]) rfl rfl fun v hv => hv
  | write n r hc =>
      exact hsame (by simp [hc, Caller.stage]) rfl rfl fun v =>
        answers_mono _ [] rfl (List.append_nil _).symm rfl
  | storeState hc | spawn hc =>
      have hst : s.caller.stage = .ready := by simp [hc, Caller.stage]
      have htokens := s.tokens_eq_zero_iff.mp (h.tokens_eq_zero (by simp [hst]) (by simp [hst]))
      exact messengerKnows_frame hm (not_transmit hm (by simp [hst])) rfl
        (.inr ⟨by simp, htokens.2.1⟩) fun v hv => hv
  | consume r hc hr =>
      -- a thread that transmits leaves the slot empty
      have hnot : ∀ t, s.messenger ≠ .transmit t := by
        intro t ht
        have hsocket := h.live (by simp [ht, Messenger.live])
        have hone : 1 ≤ s.providers := by
          have := h.socket
          simp_all [providers]
        have hstate : s.state ≠ .idle := by
          cases t <;> simp only [MessengerKnows, ht] at hm <;> simp [hm]
        have hnone := (h.busy hstate (by simp [ht]) hone).1
        simp [hr] at hnone
      exact messengerKnows_frame hm hnot rfl (.inl rfl) fun v hv => hv

/-- One more FUNCTION message that carries the request of the call. -/
theorem own_append {s' : State} {request : CalculationRequest} (hown : s.Own)
    (hlast : s.calls[s.calls.length - 1]? = some s.current) (hr : request = s.current.request)
    (ht : s'.transmitted = s.transmitted ++ [⟨some (s.calls.length - 1), request⟩])
    (hc : s'.calls = s.calls) (ha : s'.answered = s.answered) (hret : s'.returned = s.returned) :
    s'.Own := by
  constructor
  · intro f hf k hk
    rw [hc]
    rw [ht] at hf
    rcases List.mem_append.mp hf with hf | hf
    · exact hown.functions f hf k hk
    · obtain rfl := List.mem_singleton.mp hf
      obtain rfl := Option.some.inj hk
      exact ⟨s.current, hlast, hr⟩
  · intro k v hv
    rw [hret] at hv
    obtain ⟨i, f, hi, hf, hk⟩ := hown.results k v hv
    refine ⟨i, f, by rwa [ha], ?_, hk⟩
    rw [ht, List.getElem?_append_left (List.getElem?_eq_some_iff.mp hf).1, hf]

theorem callerStep_own {s' : State} (hs : CallerStep s s') (hi : s.Inv) : s'.Own := by
  obtain ⟨h, hcaller, -, hown⟩ := hi
  cases hs with
  | write n r hc =>
      simp only [CallerKnows, hc] at hcaller
      rw [deliver_eq (by simp [hc])]
      exact own_append hown (h.last _ (currentCall_of_ne_idle (by simp [hc]))).2 hcaller.1 rfl rfl
        rfl rfl
  | finish v hc =>
      simp only [CallerKnows, hc] at hcaller
      refine ⟨hown.functions, fun k v' hv => ?_⟩
      rcases List.mem_append.mp hv with hv | hv
      · exact hown.results k v' hv
      · obtain ⟨rfl, rfl⟩ := Prod.mk.inj (List.mem_singleton.mp hv)
        exact hcaller
  | _ => exact ⟨hown.functions, hown.results⟩

theorem socket_eq_zero {n : ℕ} (h : s.Shared) (hn : s.socket = some n) : n = 0 := by
  rcases h.socket with h0 | ⟨h0, -⟩ <;> simp_all

theorem messengerStep_shared {s' : State} (hs : MessengerStep s s') (hi : s.Inv) : s'.Shared := by
  obtain ⟨h, -, hknows, -⟩ := hi
  cases hs with
  | outer hm =>
      have hmove := shared_moveMessenger h .accepting (by simp [hm]) (by simp [Messenger.live])
        (by simp [Messenger.tokens]) (by simp)
      exact { hmove with socket := .inl rfl, live := fun hl => by simp [Messenger.live] at hl }
  | read n m rest hm hn hin =>
      obtain rfl := socket_eq_zero h hn
      exact shared_read h hm hin
  | lose hlive =>
      have hconn := providers_of_live h hlive
      refine shared_moveMessenger h .caught ?_ (by simp [Messenger.live])
        (by simp [Messenger.tokens]) (by simp [hconn.1])
      rintro - hset
      simp [hset, Messenger.live] at hlive
  | ignore m hm ha =>
      exact shared_moveMessenger h .reading (by simp [hm]) (by simp [hm, Messenger.live])
        (by simp [Messenger.tokens]) (by simp)
  | register r hm hs =>
      exact shared_moveMessenger h (.transmit .storeState) (by simp [hm])
        (by simp [hm, Messenger.live]) (by simp [Messenger.tokens]) (by simp)
  | answer m r hm ha hr =>
      exact shared_setIdle (shared_moveMessenger h (.producing r) (by simp [hm])
        (by simp [hm, Messenger.live]) (by simp [hm, ha, Messenger.tokens]) (by simp))
  | storeState hm =>
      simp only [MessengerKnows, hm] at hknows
      have hlive : s.messenger.live = true := by simp [hm, Messenger.live]
      have hconn := providers_of_live h hlive
      have hprovider := (h.started (by simp [providers, hconn.1])).1
      have hmove := shared_moveMessenger h (.transmit .makeMessage) (by simp [hm])
        (by simp [hm, Messenger.live]) (by simp [Messenger.tokens]) (by simp)
      exact shared_awaitResult hmove hknows.1 hknows.2.1 hprovider
  | makeMessage hm request hr =>
      simp only [MessengerKnows, hm] at hknows
      have hmove := shared_moveMessenger h (.transmit (.write s.socket request)) (by simp [hm])
        (by simp [hm, Messenger.live]) (by simp [Messenger.tokens]) (by simp)
      exact shared_setRequest hmove _ (by simp [hknows.2.2.1])
  | write n request hm =>
      simp only [MessengerKnows, hm] at hknows
      obtain ⟨ha, hres, hs, -, hn, hconn⟩ := hknows
      obtain rfl := Option.some.inj hn
      have hlive : s.messenger.live = true := by simp [hm, Messenger.live]
      have hdeliver := shared_deliver h request (providers_of_live h hlive).1 (.inr ha)
        (by simp [hs]) fun _ => by simp [tokens_eq_zero_iff, hconn, hres, hm, Messenger.tokens]
      exact shared_moveMessenger hdeliver (.transmit .resetRequest) (by simp [deliver, hm])
        (by simp [deliver, hm, Messenger.live]) (by simp [Messenger.tokens]) (by simp)
  | resetRequest hm =>
      simp only [MessengerKnows, hm] at hknows
      have hmove := shared_moveMessenger h .reading (by simp [hm])
        (by simp [hm, Messenger.live]) (by simp [Messenger.tokens]) (by simp)
      exact shared_setRequest hmove _ (by simp [hknows.2])
  | produce r hm =>
      simp only [MessengerKnows, hm] at hknows
      exact shared_produce h .reading r (by simp [hknows.1]) (by simp [hm, Messenger.live])
        rfl (by simp [hm, Messenger.tokens]) hknows.2
  | recover hm =>
      exact shared_moveMessenger h .outer (by simp [hm]) (by simp [Messenger.live])
        (by simp [Messenger.tokens]) (by simp)
  | fail hm hs => exact shared_fail h hm hs
  | produceNone hm =>
      exact shared_produce h .settingIdle none (by simp) (by simp [Messenger.live]) rfl
        (by simp [hm, Messenger.tokens]) (by simp)
  | settle hm =>
      exact shared_moveMessenger (shared_setIdle h) .outer (by simp) (by simp [Messenger.live])
        (by simp [Messenger.tokens]) (by simp)

/-- A live step before the call's wait does not add a result. -/
theorem messengerStep_tokens {s' : State} (hs : MessengerStep s s') (hi : s.Inv)
    (hst : s.caller.stage ≠ .awaiting) (hl : s'.messenger.live = true) :
    s.messenger.live = true ∧ s'.tokens ≤ s.tokens := by
  obtain ⟨h, -, hknows, -⟩ := hi
  have hnot := not_transmit hknows hst
  cases hs with
  | outer | lose | recover | fail | produceNone | settle => simp [Messenger.live] at hl
  | read n m rest hm hn hin =>
      obtain rfl := socket_eq_zero h hn
      exact ⟨by simp [hm, Messenger.live], (tokens_read hm hin).le⟩
  | ignore m hm ha | register r hm ha =>
      have hlive : s.messenger.live = true := by simp [hm, Messenger.live]
      exact ⟨hlive, tokens_moveMessenger _ (fun _ => hlive) (by simp [Messenger.tokens])⟩
  | answer m r hm ha hr =>
      have hlive : s.messenger.live = true := by simp [hm, Messenger.live]
      exact ⟨hlive, tokens_moveMessenger _ (fun _ => hlive) (by simp [Messenger.tokens, hm, ha])⟩
  | storeState hm | makeMessage hm | write _ _ hm | resetRequest hm => exact absurd hm (hnot _)
  | produce r hm =>
      have hlive : s.messenger.live = true := by simp [hm, Messenger.live]
      exact ⟨hlive, (tokens_produce h .reading r (fun _ => hlive) rfl
        (by simp [hm, Messenger.tokens])).le⟩

/-- What the caller knows while other parties take their steps. -/
theorem callerKnows_frame {s' : State} (hi : s.CallerKnows) (hc : s'.caller = s.caller)
    (hcur : s'.current = s.current) (hp : s'.activeProvider = s.activeProvider)
    (hconn : s'.nextConnection = s.nextConnection)
    (hr : s.caller.stage ≠ .awaiting → s'.activeRequest = s.activeRequest)
    (ht : s.caller.stage ≠ .awaiting → s'.messenger.live = true →
      s.messenger.live = true ∧ s'.tokens ≤ s.tokens)
    (hanswers : ∀ v, s.Answers v → s'.Answers v) : s'.CallerKnows := by
  have htokens : s.caller.stage ≠ .awaiting → (s.messenger.live = true → s.tokens = 0) →
      s'.messenger.live = true → s'.tokens = 0 := fun hst h0 hl =>
    Nat.le_zero.mp ((ht hst hl).2.trans (h0 (ht hst hl).1).le)
  unfold CallerKnows at hi ⊢
  rw [hc, hcur, hp, hconn]
  split at hi <;> simp_all [Caller.stage]

theorem messengerStep_callerKnows {s' : State} (hs : MessengerStep s s') (hi : s.Inv) :
    s'.CallerKnows := by
  have htokens := messengerStep_tokens hs hi
  obtain ⟨-, hcaller, hknows, -⟩ := hi
  cases hs with
  | makeMessage hm | resetRequest hm =>
      exact callerKnows_frame hcaller rfl rfl rfl rfl
        (fun hst => absurd hm (not_transmit hknows hst _)) htokens fun v hv => hv
  | write n r hm =>
      exact callerKnows_frame hcaller rfl rfl rfl rfl (fun _ => rfl) htokens fun v =>
        answers_mono _ [] rfl (List.append_nil _).symm rfl
  | _ => exact callerKnows_frame hcaller rfl rfl rfl rfl (fun _ => rfl) htokens fun v hv => hv

theorem messengerStep_messengerKnows {s' : State} (hs : MessengerStep s s') (hi : s.Inv) :
    s'.MessengerKnows := by
  obtain ⟨h, -, hknows, -⟩ := hi
  cases hs with
  | read n m rest hm hn hin =>
      obtain rfl := socket_eq_zero h hn
      cases m with
      | result v => exact h.inbox (by simp [hm, Messenger.live]) v (by simp [hin])
      | _ => trivial
  | register r hm hstate =>
      have hone : 1 ≤ s.providers := by
        simp [providers, (providers_of_live h (by simp [hm, Messenger.live])).1]
      have hbusy := h.busy (by simp [hstate]) (by simp [hm]) hone
      exact ⟨hbusy.2.resolve_left (h.registering hstate).1, hbusy.1, hstate⟩
  | answer m r hm ha hr =>
      refine ⟨rfl, fun v hv => ?_⟩
      rw [hr v hv] at hm
      simp only [MessengerKnows, hm] at hknows
      exact hknows
  | storeState hm =>
      simp only [MessengerKnows, hm] at hknows
      obtain ⟨ha, hres, hstate⟩ := hknows
      obtain ⟨-, htokens, hrequest⟩ := h.registering hstate
      exact ⟨ha, hres, rfl, hrequest ha, htokens⟩
  | makeMessage hm request hr =>
      simp only [MessengerKnows, hm] at hknows
      obtain ⟨ha, hres, hstate, hrequest, htokens⟩ := hknows
      have hsocket := h.live (by simp [hm, Messenger.live])
      exact ⟨ha, hres, hstate, Option.some.inj (hr.symm.trans hrequest), hsocket, htokens⟩
  | write n request hm =>
      simp only [MessengerKnows, hm] at hknows
      exact ⟨hknows.1, hknows.2.2.1⟩
  | fail hm hstate => exact hstate
  | produceNone hm =>
      simp only [MessengerKnows, hm] at hknows
      exact hknows
  | _ => trivial

theorem messengerStep_own {s' : State} (hs : MessengerStep s s') (hi : s.Inv) : s'.Own := by
  obtain ⟨h, -, hknows, hown⟩ := hi
  cases hs with
  | write n request hm =>
      simp only [MessengerKnows, hm] at hknows
      obtain ⟨ha, -, -, hr, -, -⟩ := hknows
      have hidle : s.caller ≠ .idle := fun hc => by simp [hc, Caller.stage] at ha
      rw [deliver_eq hidle]
      exact own_append hown (h.last _ (currentCall_of_ne_idle hidle)).2 hr rfl rfl rfl rfl
  | _ => exact ⟨hown.functions, hown.results⟩

/-! ### Calls and the network -/

theorem answers_of_subset {l : List (ℕ × ProviderMessage)} (hl : s.answered ⊆ l) {v : Dynamic}
    (h : s.Answers v) : { s with answered := l }.Answers v := by
  obtain ⟨i, f, hi, hf, hk⟩ := h
  exact ⟨i, f, hl hi, hf, hk⟩

theorem tokens_network {c : ℕ → Connection} (l : List (ℕ × ProviderMessage))
    (ht : (c 0).tokens = (s.connection 0).tokens) :
    { s with connection := c, answered := l }.tokens = s.tokens := by
  simp only [tokens, ht]

/-- A connection changes, but not the number of answers to expect from it. -/
theorem shared_network (h : s.Shared) (c : ℕ → Connection) (l : List (ℕ × ProviderMessage))
    (hl : s.answered ⊆ l) (ht : (c 0).tokens = (s.connection 0).tokens)
    (h0 : s.nextConnection = 0 → c 0 = s.connection 0)
    (hun : (c 0).unanswered ⊆ (s.connection 0).unanswered)
    (hin : s.messenger.live = true → ∀ v, .result v ∈ (c 0).inbox →
      .result v ∈ (s.connection 0).inbox ∨ { s with answered := l }.Answers v) :
    { s with connection := c, answered := l }.Shared :=
  have htokens := tokens_network l ht
  { h with
    unconnected := fun hn => by
      simp only [h0 hn]
      exact h.unconnected hn
    registering := fun hs => by
      simp only [ht]
      exact h.registering hs
    oneToken := htokens.le.trans h.oneToken
    expected := fun h1 => h.expected (h1.trans htokens.le)
    unanswered := fun hlive i hi => h.unanswered hlive i (hun hi)
    inbox := fun hlive v hv => (hin hlive v hv).elim
      (fun hv => answers_of_subset hl (h.inbox hlive v hv)) id
    slot := fun v hv => answers_of_subset hl (h.slot v hv) }

theorem inv_network (hi : s.Inv) (c : ℕ → Connection) (l : List (ℕ × ProviderMessage))
    (hl : s.answered ⊆ l) (ht : (c 0).tokens = (s.connection 0).tokens)
    (hshared : { s with connection := c, answered := l }.Shared) :
    { s with connection := c, answered := l }.Inv := by
  have htokens := tokens_network l ht
  obtain ⟨-, hcaller, hknows, hown⟩ := hi
  refine ⟨hshared, ?_, ?_, hown.functions, fun k v hv => ?_⟩
  · exact callerKnows_frame hcaller rfl rfl rfl rfl (fun _ => rfl)
      (fun _ hlive => ⟨hlive, htokens.le⟩) fun v hv => answers_of_subset hl hv
  · unfold MessengerKnows at hknows ⊢
    simp only [ht]
    split at hknows
    case h_1 v hv => exact answers_of_subset hl hknows
    case h_2 r hr => exact ⟨hknows.1, fun v hv => answers_of_subset hl (hknows.2 v hv)⟩
    all_goals exact hknows
  · obtain ⟨i, f, hi, hf⟩ := hown.results k v hv
    exact ⟨i, f, hl hi, hf⟩

theorem inv_send (hi : s.Inv) {n : ℕ} {m : ProviderMessage} (hn : n < s.nextConnection)
    (ha : isAnswer m = false) :
    { s with
      connection := Function.update s.connection n
        { s.connection n with inbox := (s.connection n).inbox ++ [m] } }.Inv := by
  have hone := hi.shared.one
  simp only [providers] at hone
  obtain ⟨rfl, hnext⟩ : n = 0 ∧ s.nextConnection = 1 := by omega
  have htokens : (Function.update s.connection 0
      { s.connection 0 with inbox := (s.connection 0).inbox ++ [m] } 0).tokens =
      (s.connection 0).tokens := by
    simp [Connection.tokens, ha]
  refine inv_network hi _ s.answered (List.Subset.refl _) htokens ?_
  refine shared_network hi.shared _ s.answered (List.Subset.refl _) htokens ?_ ?_ ?_
  · simp [hnext]
  · simp
  · intro _ v hv
    rw [Function.update_self] at hv
    rcases List.mem_append.mp hv with hv | hv
    · exact .inl hv
    · obtain rfl := List.mem_singleton.mp hv
      simp [isAnswer] at ha

theorem inv_answer (hi : s.Inv) {n i : ℕ} {m : ProviderMessage}
    (hmem : i ∈ (s.connection n).unanswered) (ha : isAnswer m = true) :
    { s with
      answered := s.answered ++ [(i, m)]
      connection := Function.update s.connection n
        { unanswered := (s.connection n).unanswered.erase i
          inbox := (s.connection n).inbox ++ [m] } }.Inv := by
  have hl : s.answered ⊆ s.answered ++ [(i, m)] := List.subset_append_left _ _
  by_cases hn : n = 0
  · subst hn
    have htokens : (Function.update s.connection 0
        { unanswered := (s.connection 0).unanswered.erase i
          inbox := (s.connection 0).inbox ++ [m] } 0).tokens = (s.connection 0).tokens := by
      have hlength := List.length_erase_add_one hmem
      simp only [Function.update_self, Connection.tokens, List.filter_append, List.filter_cons, ha,
        if_true, List.filter_nil, List.length_append, List.length_singleton]
      omega
    refine inv_network hi _ _ hl htokens ?_
    refine shared_network hi.shared _ _ hl htokens ?_ ?_ ?_
    · intro h0
      simp [(hi.shared.unconnected h0).2.2.2.2] at hmem
    · rw [Function.update_self]
      exact List.erase_subset
    · intro hlive v hv
      rw [Function.update_self] at hv
      rcases List.mem_append.mp hv with hv | hv
      · exact .inl hv
      · obtain rfl := List.mem_singleton.mp hv
        obtain ⟨f, hf, hk⟩ := hi.shared.unanswered hlive i hmem
        exact .inr ⟨i, f, by simp, hf, hk⟩
  · have hsame : Function.update s.connection n
        { unanswered := (s.connection n).unanswered.erase i
          inbox := (s.connection n).inbox ++ [m] } 0 = s.connection 0 :=
      Function.update_of_ne (Ne.symm hn) _ _
    refine inv_network hi _ _ hl (by rw [hsame]) ?_
    refine shared_network hi.shared _ _ hl (by rw [hsame]) (fun _ => hsame) ?_ ?_
    · rw [hsame]
      exact List.Subset.refl _
    · intro _ v hv
      rw [hsame] at hv
      exact .inl hv

theorem inv_call (hi : s.Inv) (hc : s.caller = .idle) (c : Calculation) :
    { s with caller := .entered, current := c, calls := s.calls ++ [c] }.Inv := by
  obtain ⟨h, -, hknows, hown⟩ := hi
  have hst : s.caller.stage = .out := by simp [hc, Caller.stage]
  have htokens := h.tokens_eq_zero (by simp [hst]) (by simp [hst])
  obtain ⟨hconn, hmessenger, hresult⟩ := s.tokens_eq_zero_iff.mp htokens
  have hempty : s.messenger.live = true → (s.connection 0).unanswered = []
      ∧ ∀ m ∈ (s.connection 0).inbox, isAnswer m = false := fun hl => by
    have := hconn hl
    simp only [Connection.tokens, Nat.add_eq_zero_iff, List.length_eq_zero_iff,
      List.filter_eq_nil_iff] at this
    exact ⟨this.1, fun m hm => by simpa using this.2 m hm⟩
  refine ⟨?_, trivial, ?_, ?_, hown.results⟩
  · exact
      { h with
        started := fun hone => ⟨(h.started hone).1, by simp [Caller.stage]⟩
        unnamed := fun hn => .inl (by simpa [hst] using h.unnamed hn)
        unregistered := fun hs => absurd (h.unregistered hs).1 (by simp [hst])
        busy := fun hs hm hp => absurd (h.busy hs hm hp).2 (by simp [hst])
        registering := fun hs =>
          ⟨by simp [Caller.stage], (h.registering hs).2.1, by simp [Caller.stage]⟩
        ready := fun hs => by simp [Caller.stage] at hs
        expected := fun h1 => absurd htokens (Nat.one_le_iff_ne_zero.mp h1)
        last := fun k hk => by
          obtain rfl := Option.some.inj hk
          simp
        unanswered := fun hl i hmem => by simp [(hempty hl).1] at hmem
        inbox := fun hl v hv => absurd ((hempty hl).2 _ hv) (by simp [isAnswer])
        slot := fun v hv => by simp [hresult] at hv }
  · have hnot := not_transmit hknows (by simp [hst])
    unfold MessengerKnows at hknows ⊢
    split at hknows <;> simp_all [Messenger.tokens, isAnswer]
  · intro f hf k hk
    obtain ⟨c', hc', hr⟩ := hown.functions f hf k hk
    exact ⟨c', by rw [List.getElem?_append_left (List.getElem?_eq_some_iff.mp hc').1, hc'], hr⟩

theorem inv_connect (hi : s.Inv) {pid : Bytes} (hm : s.messenger = .accepting)
    (hpid : pid ∈ s.spawned) :
    { s with
      messenger := .reading
      socket := some s.nextConnection
      nextConnection := s.nextConnection + 1
      spawned := s.spawned.erase pid }.Inv := by
  obtain ⟨h, hcaller, -, hown⟩ := hi
  obtain ⟨hst, hresult⟩ := h.unregistered (List.ne_nil_of_mem hpid)
  have hone := h.one
  have hpos := List.length_pos_of_mem hpid
  have hlength := List.length_erase_of_mem hpid
  simp only [providers] at hone
  have h0 : s.nextConnection = 0 := by omega
  have hnil : s.spawned.erase pid = [] := List.eq_nil_of_length_eq_zero (by omega)
  have hconn := (h.unconnected h0).2.2.2.2
  have hproviders : 1 ≤ s.providers := by simp only [providers]; omega
  rw [h0, hnil]
  refine ⟨?_, ?_, trivial, hown.functions, hown.results⟩
  · exact
      { h with
        one := by simp [providers]
        started := fun _ => h.started hproviders
        unconnected := fun hn => by simp at hn
        unregistered := fun hs => by simp at hs
        socket := .inr ⟨rfl, rfl⟩
        live := fun _ => rfl
        busy := fun hs _ _ => h.busy hs (by simp [hm]) hproviders
        oneToken := by
          simp [tokens, hconn, hresult, Messenger.tokens, Connection.tokens]
        expected := fun _ => .inr hst
        unanswered := fun _ i hmem => by simp [hconn] at hmem
        inbox := fun _ v hv => by simp [hconn] at hv }
  · unfold CallerKnows at hcaller ⊢
    split at hcaller <;> simp_all [Caller.stage]

end

theorem inv_initial : State.Inv {} := by
  refine ⟨?_, trivial, trivial, ?_, ?_⟩
  · constructor <;>
      simp [State.providers, State.tokens, Caller.stage, Messenger.live, Messenger.tokens,
        State.currentCall]
  · simp [State.OwnFunctions]
  · simp [State.OwnResults]

theorem step_inv {s s' : State} {e : Event} (hi : s.Inv) (hok : Steady s e)
    (h : s.step e = some s') : s'.Inv := by
  cases e with
  | call c =>
      simp only [State.step] at h
      split at h
      · rename_i hc
        obtain rfl := Option.some.inj h
        exact inv_call hi hc c
      · cases h
  | caller ok pid =>
      have hstep := callerStep_cases h hok hi.caller
      exact ⟨callerStep_shared hstep hi, callerStep_callerKnows hstep hi,
        callerStep_messengerKnows hstep hi, callerStep_own hstep hi⟩
  | messenger ok =>
      have hstep := messengerStep_cases h
      exact ⟨messengerStep_shared hstep hi, messengerStep_callerKnows hstep hi,
        messengerStep_messengerKnows hstep hi, messengerStep_own hstep hi⟩
  | connect pid =>
      simp only [State.step] at h
      split at h
      · rename_i hm
        split at h
        · rename_i hpid
          obtain rfl := Option.some.inj h
          exact inv_connect hi hm hpid
        · cases h
      · cases h
  | send n m =>
      simp only [State.step] at h
      split at h
      · rename_i hn
        obtain rfl := Option.some.inj h
        exact inv_send hi hn.1 hn.2
      · cases h
  | answer n i m =>
      simp only [State.step] at h
      split at h
      · rename_i hn
        obtain rfl := Option.some.inj h
        exact inv_answer hi hn.1 hn.2
      · cases h

/-! ## The results -/

/-- In a run where the caller's writes succeed and no container outlives a failed
`spawn_provider`, calls get their own arguments and results. -/
theorem own_of_steady {s : State}
    (h : Transition.Reachable State.step Steady {s | s = {}} s) : s.Own := by
  have hinv : s.Inv := by
    refine h.invariant ?_ fun s s' e hi hok hstep => step_inv hi hok hstep
    rintro s rfl
    exact inv_initial
  exact hinv.own

/-- A call of a function of one argument, always the same function. -/
def calculationOf (i : ℤ) : Calculation := ⟨[1], [2], .tag [3], [4], [.integer i]⟩

def callerSteps (n : ℕ) (pid : Bytes) : List Event := List.replicate n (.caller true pid)

def messengerSteps (n : ℕ) : List Event := List.replicate n (.messenger true)

/-- The first call starts a provider, and returns what that answers. -/
def firstCall : List Event :=
  [.messenger true, .call (calculationOf 1)] ++ callerSteps 9 [5]
    ++ [.connect [5], .send 0 (.registration ⟨0, [5]⟩)] ++ messengerSteps 6
    ++ [.answer 0 0 (.result (.integer 10))] ++ messengerSteps 3 ++ callerSteps 2 []

theorem own_firstCall : ∃ s, Transition.run State.step {} firstCall = some s
    ∧ s.returned = [(0, .integer 10)] ∧ s.Own := by
  obtain ⟨s, hrun⟩ : ∃ s, Transition.run State.step {} firstCall = some s :=
    Option.isSome_iff_exists.mp (by decide)
  have hmeet : Transition.StepsMeet State.step Steady {} firstCall := by decide
  have hreturned : (Transition.run State.step {} firstCall).map (·.returned)
      = some [(0, .integer 10)] := by
    rfl
  rw [hrun] at hreturned
  exact ⟨s, hrun, Option.some.inj hreturned,
    own_of_steady (.run_of_stepsMeet (.start rfl) hmeet hrun)⟩

/-- The provider of the first call goes away while the second call transmits.  The message
thread reports a failure, the caller's write fails, and a second provider is started, which gets
the request of the second call.  The failure ends that call, and the answer arrives in the third
call. -/
def retriedCall : List Event :=
  firstCall ++ [.call (calculationOf 2)] ++ callerSteps 5 [] ++ [.messenger false]
    ++ messengerSteps 4 ++ [.caller true [], .caller false []] ++ callerSteps 6 [6]
    ++ [.connect [6], .send 1 (.registration ⟨0, [6]⟩)] ++ messengerSteps 6
    ++ callerSteps 2 [] ++ [.answer 1 1 (.result (.integer 20))] ++ messengerSteps 2
    ++ [.call (calculationOf 3)] ++ callerSteps 3 [] ++ messengerSteps 1 ++ callerSteps 5 []
    ++ [.answer 1 2 (.result (.integer 30))] ++ messengerSteps 2 ++ callerSteps 2 []

/-- The second provider gets the request without its argument, and the third call returns the
result of the second. -/
theorem not_own_retriedCall :
    ∃ s, Transition.Reachable State.step (fun _ _ => True) {s | s = {}} s
      ∧ ¬ s.OwnFunctions ∧ ¬ s.OwnResults := by
  obtain ⟨s, hrun⟩ : ∃ s, Transition.run State.step {} retriedCall = some s :=
    Option.isSome_iff_exists.mp (by decide)
  have hs : (Transition.run State.step {} retriedCall).map
        (fun s => (s.calls, s.transmitted, s.answered, s.returned))
      = some ([calculationOf 1, calculationOf 2, calculationOf 3],
        [⟨some 0, [4], [.integer 1]⟩, ⟨some 1, [4], []⟩, ⟨some 2, [4], [.integer 3]⟩],
        [(0, .result (.integer 10)), (1, .result (.integer 20)), (2, .result (.integer 30))],
        [(0, .integer 10), (2, .integer 20)]) := by
    rfl
  rw [hrun] at hs
  simp only [Option.map_some, Option.some.injEq, Prod.mk.injEq] at hs
  obtain ⟨hcalls, htransmitted, hanswered, hreturned⟩ := hs
  have hstart : Transition.Reachable State.step (fun _ _ => True) {s | s = {}} {} := .start rfl
  refine ⟨s, hstart.run hrun, fun hown => ?_, fun hown => ?_⟩
  · obtain ⟨c, hc, hr⟩ := hown ⟨some 1, [4], []⟩ (by simp [htransmitted]) 1 rfl
    rw [hcalls] at hc
    obtain rfl := Option.some.inj hc
    simp [Calculation.request, calculationOf] at hr
  · obtain ⟨i, f, hi, hf, hk⟩ := hown 2 (.integer 20) (by simp [hreturned])
    rw [hanswered] at hi
    obtain rfl : i = 1 := by simpa using hi
    rw [htransmitted] at hf
    obtain rfl := Option.some.inj hf
    simp at hk

end Cradle.Supervisor
