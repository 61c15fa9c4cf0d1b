import Cradle.Thinknode.Supervisor
import Cradle.Typing.Diff

/-!
# Providing calculations

A provider connects to a supervisor, registers, and then runs the functions of an app that the
FUNCTION messages ask for.  A function runs in a thread of its own, which posts its progress and its
result to a queue; the thread that reads from the socket and writes to it, `ipc` here, waits for
signals from the queue, and now and then looks whether there is a message on the socket.

A step is one message or one use of the queue's mutex.  Whether a wait ends by a signal, and
whether there is something on the socket, is not known to the model: it can go either way.
A FUNCTION message has an `id` that says which one it is.  `id`, `reported`, `served`, `pinged` and
`written` are not in the program: they record what has happened.
-/

namespace Cradle.Provider

open Ipc (CalculationRequest ProviderMessage SupervisorMessage)
open Supervisor (isAnswer)

/-! ## Calculations -/

/-- How a call of `execute_function` ends. -/
inductive Outcome
  | returned (result : Dynamic)
  | threw (what : Bytes)

/-- The last message of `perform_calculation`. -/
def Outcome.message : Outcome → ProviderMessage
  | returned result => .result result
  | threw what => .failure ⟨ascii ['n', 'o', 'n', 'e'], what⟩

/-- The message of `provider_progress_reporter`. -/
def progressMessage (progress : Double) : ProviderMessage := .progress ⟨progress, []⟩

/-- `provider_app_interface`: for a request, the progress that may be reported, and how the call
may end then. -/
abbrev App := CalculationRequest → List Double → Outcome → Prop

/-- A calculation with the thread that performs it and its queue. -/
structure Calculation where
  id : ℕ
  request : CalculationRequest
  reported : List Double := []
  outcome : Option Outcome := none
  queue : List ProviderMessage := []

namespace Calculation

/-- `post_message`. -/
def post (c : Calculation) (message : ProviderMessage) : Calculation :=
  { c with queue := c.queue ++ [message] }

/-- What the thread has posted. -/
def posted (c : Calculation) : List ProviderMessage :=
  c.reported.map progressMessage ++ c.outcome.toList.map Outcome.message

end Calculation

/-! ## The provider -/

/-- Where the thread of `provide_calculations` is. -/
inductive IpcThread
  | registering
  | reading
  | ponging (code : Bytes)
  /-- At the start of the loop of `dispatch_and_monitor_calculation`. -/
  | locking
  /-- In `transmit_queued_messages`, with the mutex, before or after the wait. -/
  | transmitting (waited : Bool)
  | waiting
  /-- In `has_incoming_message`. -/
  | polling
  | monitoring
  | replying (code : Bytes)
  | joining
  | stopped

/-- `calc_provider` with its threads and the socket. -/
structure State where
  pid : Bytes := []
  ipc : IpcThread := .registering
  calculation : Option Calculation := none
  incoming : List (ℕ × SupervisorMessage) := []
  written : List ProviderMessage := []
  served : List Calculation := []
  pinged : List Bytes := []

inductive Event
  /-- A message of the supervisor arrives. -/
  | receive (id : ℕ) (message : SupervisorMessage)
  /-- The function reports progress. -/
  | report (progress : Double)
  /-- The function returns or throws. -/
  | finish (outcome : Outcome)
  /-- A step of `provide_calculations`: `ok` tells whether a read or write succeeds, and `ready`
  whether a wait ends by a signal, or the socket seems to have data. -/
  | ipc (ok ready : Bool)

namespace State

/-- A step of the thread that performs the calculation.  It posts only while the mutex is free. -/
def calculationStep (s : State) (change : Calculation → Calculation) : Option State :=
  match s.ipc with
  | .transmitting _ | .stopped => none
  | _ =>
      match s.calculation with
      | some c =>
          match c.outcome with
          | none => some { s with calculation := some (change c) }
          | some _ => none
      | none => none

/-- `transmit_queued_messages`: a message is written and taken from the queue, but the last one is
not taken from it. -/
def transmitStep (s : State) (ok waited : Bool) (c : Calculation) : State :=
  match c.queue with
  | [] => { s with ipc := if waited then .polling else .waiting }
  | message :: queue =>
      if ok then
        if isAnswer message then { s with ipc := .joining }
        else { s with calculation := some { c with queue } }
      else { s with ipc := .stopped }

/-- The next step of `provide_calculations`.  An error of the socket ends the process, and so does
a FUNCTION message during a calculation, unless assertions are off. -/
def ipcStep (asserts : Bool) (s : State) (ok ready : Bool) : Option State :=
  match s.ipc with
  | .stopped => none
  | .registering => some { s with ipc := if ok then .reading else .stopped }
  | .reading =>
      if ok then
        match s.incoming with
        | [] => none
        | (id, .function request) :: incoming =>
            some { s with ipc := .locking, incoming, calculation := some { id, request } }
        | (_, .ping code) :: incoming =>
            some { s with ipc := .ponging code, incoming, pinged := s.pinged ++ [code] }
      else some { s with ipc := .stopped }
  | .ponging _ => some { s with ipc := if ok then .reading else .stopped }
  | .locking => some { s with ipc := .transmitting false }
  | .transmitting waited => s.calculation.map (s.transmitStep ok waited)
  | .waiting => some { s with ipc := if ready then .transmitting true else .polling }
  | .polling => some { s with ipc := if ready then .monitoring else .locking }
  | .monitoring =>
      if ok then
        match s.incoming with
        | [] => none
        | (_, .function _) :: incoming =>
            some { s with ipc := if asserts then .stopped else .polling, incoming }
        | (_, .ping code) :: incoming =>
            some { s with ipc := .replying code, incoming, pinged := s.pinged ++ [code] }
      else some { s with ipc := .stopped }
  | .replying _ => some { s with ipc := if ok then .polling else .stopped }
  | .joining =>
      s.calculation.bind fun c =>
        c.outcome.map fun _ =>
          { s with ipc := .reading, calculation := none, served := s.served ++ [c] }

/-- The message that a step writes. -/
def emission (s : State) : Event → Option ProviderMessage
  | .ipc true _ =>
      match s.ipc with
      | .registering => some (.registration ⟨0, s.pid⟩)
      | .ponging code | .replying code => some (.pong code)
      | .transmitting _ => s.calculation.bind (·.queue.head?)
      | _ => none
  | _ => none

/-- A step without what it writes. -/
def proceed (asserts : Bool) (s : State) : Event → Option State
  | .receive id message => some { s with incoming := s.incoming ++ [(id, message)] }
  | .report progress =>
      s.calculationStep fun c =>
        { c.post (progressMessage progress) with reported := c.reported ++ [progress] }
  | .finish outcome =>
      s.calculationStep fun c => { c.post outcome.message with outcome := some outcome }
  | .ipc ok ready => s.ipcStep asserts ok ready

def step (asserts : Bool) (s : State) (e : Event) : Option State :=
  (s.proceed asserts e).map fun s' => { s' with written := s.written ++ (s.emission e).toList }

end State

/-- A function ends as the app lets it. -/
def Allowed (app : App) (s : State) : Event → Prop
  | .finish outcome => ∀ c, s.calculation = some c → app c.request c.reported outcome
  | _ => True

/-! ## What a step does -/

section
variable {asserts : Bool} {s s' : State}

theorem written_eq {e : Event} (h : s.step asserts e = some s') :
    s'.written = s.written ++ (s.emission e).toList := by
  obtain ⟨t, -, rfl⟩ := Option.map_eq_some_iff.mp h
  rfl

theorem calculationStep_cases {change : Calculation → Calculation}
    (h : s.calculationStep change = some s') :
    ∃ c, s.calculation = some c ∧ c.outcome = none ∧ (∀ waited, s.ipc ≠ .transmitting waited) ∧
      s.ipc ≠ .stopped ∧ s' = { s with calculation := some (change c) } := by
  rw [State.calculationStep] at h
  split at h
  case h_1 => cases h
  case h_2 => cases h
  case h_3 htransmitting hstopped =>
      split at h
      case h_2 => cases h
      case h_1 c hc =>
          split at h
          case h_2 => cases h
          case h_1 hrunning =>
              cases h
              exact ⟨c, hc, hrunning, htransmitting, hstopped, rfl⟩

/-- The steps of `provide_calculations`, with what they write. -/
inductive IpcStep (asserts : Bool) (s : State) (ok ready : Bool) : State → Prop
  | fail (hok : ok = false) : IpcStep asserts s ok ready { s with ipc := .stopped }
  | register (h : s.ipc = .registering) : IpcStep asserts s ok ready
      { s with ipc := .reading, written := s.written ++ [.registration ⟨0, s.pid⟩] }
  | begin (id : ℕ) (request : CalculationRequest) (incoming : List (ℕ × SupervisorMessage))
      (h : s.ipc = .reading) (hin : s.incoming = (id, .function request) :: incoming) :
      IpcStep asserts s ok ready
        { s with ipc := .locking, incoming, calculation := some { id, request } }
  | ping (id : ℕ) (code : Bytes) (incoming : List (ℕ × SupervisorMessage)) (h : s.ipc = .reading)
      (hin : s.incoming = (id, .ping code) :: incoming) : IpcStep asserts s ok ready
        { s with ipc := .ponging code, incoming, pinged := s.pinged ++ [code] }
  | pong (code : Bytes) (h : s.ipc = .ponging code) :
      IpcStep asserts s ok ready { s with ipc := .reading, written := s.written ++ [.pong code] }
  | lock (h : s.ipc = .locking) : IpcStep asserts s ok ready { s with ipc := .transmitting false }
  | drained (waited : Bool) (c : Calculation) (h : s.ipc = .transmitting waited)
      (hc : s.calculation = some c) (hq : c.queue = []) :
      IpcStep asserts s ok ready { s with ipc := if waited then .polling else .waiting }
  | transmit (waited : Bool) (c : Calculation) (message : ProviderMessage)
      (queue : List ProviderMessage) (h : s.ipc = .transmitting waited)
      (hc : s.calculation = some c) (hq : c.queue = message :: queue)
      (hm : isAnswer message = false) : IpcStep asserts s ok ready
        { s with calculation := some { c with queue }, written := s.written ++ [message] }
  | answer (waited : Bool) (c : Calculation) (message : ProviderMessage)
      (queue : List ProviderMessage) (h : s.ipc = .transmitting waited)
      (hc : s.calculation = some c) (hq : c.queue = message :: queue)
      (hm : isAnswer message = true) :
      IpcStep asserts s ok ready { s with ipc := .joining, written := s.written ++ [message] }
  | wake (h : s.ipc = .waiting) :
      IpcStep asserts s ok ready
        { s with ipc := if ready then .transmitting true else .polling }
  | poll (h : s.ipc = .polling) :
      IpcStep asserts s ok ready { s with ipc := if ready then .monitoring else .locking }
  | ignore (id : ℕ) (request : CalculationRequest)
      (incoming : List (ℕ × SupervisorMessage)) (h : s.ipc = .monitoring)
      (hin : s.incoming = (id, .function request) :: incoming) :
      IpcStep asserts s ok ready
        { s with ipc := if asserts then .stopped else .polling, incoming }
  | pingDuring (id : ℕ) (code : Bytes) (incoming : List (ℕ × SupervisorMessage))
      (h : s.ipc = .monitoring) (hin : s.incoming = (id, .ping code) :: incoming) :
      IpcStep asserts s ok ready
        { s with ipc := .replying code, incoming, pinged := s.pinged ++ [code] }
  | pongDuring (code : Bytes) (h : s.ipc = .replying code) :
      IpcStep asserts s ok ready { s with ipc := .polling, written := s.written ++ [.pong code] }
  | join (c : Calculation) (outcome : Outcome) (h : s.ipc = .joining)
      (hc : s.calculation = some c) (ho : c.outcome = some outcome) :
      IpcStep asserts s ok ready
        { s with ipc := .reading, calculation := none, served := s.served ++ [c] }

theorem ipcStep_cases {ok ready : Bool} (h : s.step asserts (.ipc ok ready) = some s') :
    IpcStep asserts s ok ready s' := by
  obtain ⟨t, ht, rfl⟩ := Option.map_eq_some_iff.mp h
  simp only [State.proceed] at ht
  cases hipc : s.ipc with
  | stopped => simp [State.ipcStep, hipc] at ht
  | registering =>
      simp only [State.ipcStep, hipc, Option.some.injEq] at ht
      subst ht
      cases ok with
      | true => simpa [State.emission, hipc] using IpcStep.register hipc
      | false => simpa [State.emission, hipc] using IpcStep.fail rfl
  | reading =>
      simp only [State.ipcStep, hipc] at ht
      cases ok with
      | false =>
          cases ht
          simpa [State.emission, hipc] using IpcStep.fail rfl
      | true =>
          simp only [if_true] at ht
          split at ht
          case h_1 => cases ht
          case h_2 id request incoming hin =>
              cases ht
              simpa [State.emission, hipc] using IpcStep.begin id request incoming hipc hin
          case h_3 id code incoming hin =>
              cases ht
              simpa [State.emission, hipc] using IpcStep.ping id code incoming hipc hin
  | ponging code =>
      simp only [State.ipcStep, hipc, Option.some.injEq] at ht
      subst ht
      cases ok with
      | true => simpa [State.emission, hipc] using IpcStep.pong code hipc
      | false => simpa [State.emission, hipc] using IpcStep.fail rfl
  | locking =>
      simp only [State.ipcStep, hipc, Option.some.injEq] at ht
      subst ht
      cases ok <;> simpa [State.emission, hipc] using IpcStep.lock hipc
  | transmitting waited =>
      simp only [State.ipcStep, hipc] at ht
      obtain ⟨c, hc, rfl⟩ := Option.map_eq_some_iff.mp ht
      cases hq : c.queue with
      | nil =>
          cases ok <;>
            simpa [State.transmitStep, State.emission, hipc, hc, hq] using
              IpcStep.drained waited c hipc hc hq
      | cons message queue =>
          cases ok with
          | false =>
              have hfail : IpcStep asserts s false ready { s with ipc := .stopped } := .fail rfl
              simpa [State.transmitStep, State.emission, hipc, hc, hq] using hfail
          | true =>
              cases hm : isAnswer message with
              | true =>
                  simpa [State.transmitStep, State.emission, hipc, hc, hq, hm] using
                    IpcStep.answer waited c message queue hipc hc hq hm
              | false =>
                  simpa [State.transmitStep, State.emission, hipc, hc, hq, hm] using
                    IpcStep.transmit waited c message queue hipc hc hq hm
  | waiting =>
      simp only [State.ipcStep, hipc, Option.some.injEq] at ht
      subst ht
      cases ok <;> simpa [State.emission, hipc] using IpcStep.wake hipc
  | polling =>
      simp only [State.ipcStep, hipc, Option.some.injEq] at ht
      subst ht
      cases ok <;> simpa [State.emission, hipc] using IpcStep.poll hipc
  | monitoring =>
      simp only [State.ipcStep, hipc] at ht
      cases ok with
      | false =>
          cases ht
          simpa [State.emission, hipc] using IpcStep.fail rfl
      | true =>
          simp only [if_true] at ht
          split at ht
          case h_1 => cases ht
          case h_2 id request incoming hin =>
              cases ht
              simpa [State.emission, hipc] using
                IpcStep.ignore id request incoming hipc hin
          case h_3 id code incoming hin =>
              cases ht
              simpa [State.emission, hipc] using IpcStep.pingDuring id code incoming hipc hin
  | replying code =>
      simp only [State.ipcStep, hipc, Option.some.injEq] at ht
      subst ht
      cases ok with
      | true => simpa [State.emission, hipc] using IpcStep.pongDuring code hipc
      | false => simpa [State.emission, hipc] using IpcStep.fail rfl
  | joining =>
      simp only [State.ipcStep, hipc] at ht
      obtain ⟨c, hc, ht⟩ := Option.bind_eq_some_iff.mp ht
      obtain ⟨outcome, ho, rfl⟩ := Option.map_eq_some_iff.mp ht
      cases ok <;> simpa [State.emission, hipc] using IpcStep.join c outcome hipc hc ho

end

/-! ## What a provider writes -/

/-- The message is about a calculation. -/
def isOutput : ProviderMessage → Bool
  | .progress _ | .result _ | .failure _ => true
  | _ => false

/-- The messages about calculations. -/
def outputs (messages : List ProviderMessage) : List ProviderMessage := messages.filter isOutput

/-- The codes of the PONG messages. -/
def pongs (messages : List ProviderMessage) : List Bytes :=
  messages.filterMap fun
    | .pong code => some code
    | _ => none

/-- Nothing is written before the registration, which is written once. -/
def RegistersFirst (pid : Bytes) (messages : List ProviderMessage) : Prop :=
  messages = [] ∨ ∃ rest, messages = .registration ⟨0, pid⟩ :: rest ∧
    ∀ registration, .registration registration ∉ rest

/-- What `provide_calculations` still has to do, by where it is. -/
def IpcThread.owes : IpcThread → List Bytes
  | ponging code | replying code => [code]
  | _ => []

/-- A calculation is under way. -/
def IpcThread.dispatched : IpcThread → Bool
  | locking | transmitting _ | waiting | polling | monitoring | replying _ | joining => true
  | _ => false

@[simp] theorem outputs_append (xs ys : List ProviderMessage) :
    outputs (xs ++ ys) = outputs xs ++ outputs ys := List.filter_append _ _

@[simp] theorem pongs_append (xs ys : List ProviderMessage) :
    pongs (xs ++ ys) = pongs xs ++ pongs ys := List.filterMap_append

@[simp] theorem isOutput_message (o : Outcome) : isOutput o.message = true := by cases o <;> rfl

@[simp] theorem isAnswer_message (o : Outcome) : isAnswer o.message = true := by cases o <;> rfl

theorem isOutput_of_isAnswer {m : ProviderMessage} (h : isAnswer m = true) : isOutput m = true := by
  cases m <;> simp_all [isAnswer, isOutput]

theorem pongs_of_isOutput {m : ProviderMessage} (h : isOutput m = true) : pongs [m] = [] := by
  cases m <;> simp_all [isOutput, pongs]

theorem isOutput_posted {c : Calculation} {m : ProviderMessage} (h : m ∈ c.posted) :
    isOutput m = true := by
  rw [Calculation.posted, List.mem_append] at h
  rcases h with h | h
  · obtain ⟨p, -, rfl⟩ := List.mem_map.mp h
    rfl
  · obtain ⟨o, -, rfl⟩ := List.mem_map.mp h
    exact isOutput_message o

theorem RegistersFirst.append {pid : Bytes} {messages : List ProviderMessage} {m : ProviderMessage}
    (h : RegistersFirst pid messages) (hne : messages ≠ [])
    (hm : ∀ registration, m ≠ .registration registration) :
    RegistersFirst pid (messages ++ [m]) := by
  rcases h with rfl | ⟨rest, rfl, hrest⟩
  · exact absurd rfl hne
  · refine .inr ⟨rest ++ [m], rfl, fun registration hmem => ?_⟩
    rcases List.mem_append.mp hmem with hmem | hmem
    · exact hrest registration hmem
    · exact hm registration (List.mem_singleton.mp hmem).symm

/-- The answer of a calculation is the last thing it posts. -/
theorem posted_answer {c : Calculation} {sent queue : List ProviderMessage} {m : ProviderMessage}
    (h : c.posted = sent ++ m :: queue) (hm : isAnswer m = true) :
    queue = [] ∧ ∃ o, c.outcome = some o ∧ m = o.message := by
  have hprogress : ∀ x ∈ c.reported.map progressMessage, isAnswer x = false := by
    intro x hx
    obtain ⟨p, -, rfl⟩ := List.mem_map.mp hx
    rfl
  rw [Calculation.posted] at h
  cases ho : c.outcome with
  | none =>
      rw [ho] at h
      have hmem : m ∈ c.reported.map progressMessage := by
        simp only [Option.toList_none, List.map_nil, List.append_nil] at h
        rw [h]
        exact List.mem_append_right _ List.mem_cons_self
      rw [hprogress m hmem] at hm
      cases hm
  | some o =>
      rw [ho] at h
      simp only [Option.toList_some, List.map_cons, List.map_nil] at h
      rcases List.eq_nil_or_concat queue with rfl | ⟨queue', last, rfl⟩
      · have hlast := (List.append_inj' h rfl).2
        exact ⟨rfl, o, rfl, (List.cons.inj hlast).1.symm⟩
      · -- the answer would be one of the progress messages
        rw [List.concat_eq_append, ← List.cons_append, ← List.append_assoc] at h
        have hfront := (List.append_inj' h rfl).1
        have hmem : m ∈ c.reported.map progressMessage := by
          rw [hfront]
          exact List.mem_append_right _ List.mem_cons_self
        rw [hprogress m hmem] at hm
        cases hm

section
variable (app : App)

/-- What is known of the calculation under way, of which `sent` has been written. -/
structure CalculationFits (ipc : IpcThread) (c : Calculation) (sent : List ProviderMessage) :
    Prop where
  allowed : ∀ o, c.outcome = some o → app c.request c.reported o
  posted : ∃ rest, c.posted = sent ++ rest ∧
    (ipc ≠ .joining → ipc ≠ .stopped → rest = c.queue) ∧
      (ipc = .joining → rest = [] ∧ ∃ o, c.outcome = some o)
  unanswered : ipc ≠ .joining → ipc ≠ .stopped → ∀ m ∈ sent, isAnswer m = false

/-- What holds of the calculations in every state, of which `sent` has been written for the one
under way. -/
structure Serves (s : State) (sent : List ProviderMessage) : Prop where
  written : outputs s.written = s.served.flatMap Calculation.posted ++ sent
  served : ∀ c ∈ s.served, ∃ o, c.outcome = some o ∧ app c.request c.reported o
  dispatched : s.ipc ≠ .stopped → s.calculation.isSome = s.ipc.dispatched
  idle : s.calculation = none → sent = []
  calculation : ∀ c, s.calculation = some c → CalculationFits app s.ipc c sent

variable {app} {asserts ok ready : Bool} {s s' : State} {sent : List ProviderMessage}

/-- The thread goes on without the calculation, and writes nothing about one. -/
theorem Serves.move (h : Serves app s sent) {t : State} (hserved : t.served = s.served)
    (hcalculation : t.calculation = s.calculation)
    (hwritten : outputs t.written = outputs s.written)
    (hipc : t.ipc ≠ .stopped → s.ipc ≠ .stopped ∧ s.ipc ≠ .joining ∧ t.ipc ≠ .joining ∧
      t.ipc.dispatched = s.ipc.dispatched) : Serves app t sent := by
  refine ⟨by rw [hwritten, hserved]; exact h.written, by rw [hserved]; exact h.served,
    fun ht => ?_, by rw [hcalculation]; exact h.idle, fun c hc => ?_⟩
  · rw [hcalculation, (hipc ht).2.2.2]
    exact h.dispatched (hipc ht).1
  · obtain ⟨happ, ⟨rest, hposted, hrest, -⟩, hunanswered⟩ := h.calculation c (hcalculation ▸ hc)
    refine ⟨happ, ⟨rest, hposted, fun _ ht => hrest (hipc ht).2.1 (hipc ht).1, fun hjoin => ?_⟩,
      fun _ ht => hunanswered (hipc ht).2.1 (hipc ht).1⟩
    have hne : t.ipc ≠ .stopped := by rw [hjoin]; simp
    exact absurd hjoin (hipc hne).2.2.1

theorem Serves.isOutput_head (h : Serves app s sent) {waited : Bool} {c : Calculation}
    {m : ProviderMessage} {queue : List ProviderMessage} (hipc : s.ipc = .transmitting waited)
    (hc : s.calculation = some c) (hq : c.queue = m :: queue) : isOutput m = true := by
  obtain ⟨-, ⟨rest, hposted, hrest, -⟩, -⟩ := h.calculation c hc
  rw [hrest (by simp [hipc]) (by simp [hipc]), hq] at hposted
  refine isOutput_posted (c := c) ?_
  rw [hposted]
  exact List.mem_append_right _ List.mem_cons_self

theorem Serves.ipcStep (h : Serves app s sent) (hstep : IpcStep asserts s ok ready s') :
    ∃ sent', Serves app s' sent' := by
  cases hstep with
  | fail _ => exact ⟨sent, h.move rfl rfl rfl fun hstopped => absurd rfl hstopped⟩
  | register hipc =>
      exact ⟨sent, h.move rfl rfl (by simp [outputs, isOutput]) fun _ => by
        simp [hipc, IpcThread.dispatched]⟩
  | pong code hipc | pongDuring code hipc =>
      exact ⟨sent, h.move rfl rfl (by simp [outputs, isOutput]) fun _ => by
        simp [hipc, IpcThread.dispatched]⟩
  | ping id code incoming hipc hin | pingDuring id code incoming hipc hin =>
      exact ⟨sent, h.move rfl rfl rfl fun _ => by simp [hipc, IpcThread.dispatched]⟩
  | lock hipc => exact ⟨sent, h.move rfl rfl rfl fun _ => by simp [hipc, IpcThread.dispatched]⟩
  | drained waited c hipc hc hq =>
      exact ⟨sent, h.move rfl rfl rfl fun _ => by
        cases waited <;> simp [hipc, IpcThread.dispatched]⟩
  | wake hipc | poll hipc =>
      exact ⟨sent, h.move rfl rfl rfl fun _ => by
        cases ready <;> simp [hipc, IpcThread.dispatched]⟩
  | ignore id request incoming hipc hin =>
      exact ⟨sent, h.move rfl rfl rfl fun _ => by
        cases asserts <;> simp_all [IpcThread.dispatched]⟩
  | begin id request incoming hipc hin =>
      have hnone : s.calculation = none := by
        have hdispatched := h.dispatched (by simp [hipc])
        simpa [hipc, IpcThread.dispatched] using hdispatched
      have hsent := h.idle hnone
      subst hsent
      refine ⟨[], h.written, h.served, fun _ => rfl, fun _ => rfl, fun c hc => ?_⟩
      cases hc
      exact ⟨by simp, ⟨[], rfl, fun _ _ => rfl, by simp⟩, by simp⟩
  | transmit waited c message queue hipc hc hq hm =>
      obtain ⟨happ, ⟨rest, hposted, hrest, -⟩, hunanswered⟩ := h.calculation c hc
      rw [hrest (by simp [hipc]) (by simp [hipc]), hq] at hposted
      have hout := h.isOutput_head hipc hc hq
      refine ⟨sent ++ [message], ?_, h.served, fun _ => by simp [hipc, IpcThread.dispatched],
        by simp, fun c' hc' => ?_⟩
      · rw [outputs_append, h.written, List.append_assoc]
        simp [outputs, hout]
      · cases hc'
        refine ⟨happ, ⟨queue, ?_, fun _ _ => rfl, by simp [hipc]⟩, fun _ _ => ?_⟩
        · rw [List.append_assoc]
          exact hposted
        · refine List.forall_mem_append.mpr ⟨hunanswered (by simp [hipc]) (by simp [hipc]), ?_⟩
          exact List.forall_mem_singleton.mpr hm
  | answer waited c message queue hipc hc hq hm =>
      obtain ⟨happ, ⟨rest, hposted, hrest, -⟩, hunanswered⟩ := h.calculation c hc
      rw [hrest (by simp [hipc]) (by simp [hipc]), hq] at hposted
      obtain ⟨rfl, o, ho, hmessage⟩ := posted_answer hposted hm
      refine ⟨sent ++ [message], ?_, h.served, fun _ => by simp [hc, IpcThread.dispatched],
        by simp [hc], fun c' hc' => ?_⟩
      · rw [outputs_append, h.written, List.append_assoc]
        simp [outputs, isOutput_of_isAnswer hm]
      · rw [hc] at hc'
        cases hc'
        refine ⟨happ, ⟨[], ?_, by simp, fun _ => ⟨rfl, o, ho⟩⟩, by simp⟩
        rw [List.append_nil]
        exact hposted
  | join c o hipc hc ho =>
      obtain ⟨happ, ⟨rest, hposted, -, hjoin⟩, -⟩ := h.calculation c hc
      obtain ⟨rfl, -⟩ := hjoin hipc
      rw [List.append_nil] at hposted
      refine ⟨[], ?_, fun c' hc' => ?_, fun _ => rfl, fun _ => rfl, fun c' hc' => by cases hc'⟩
      · rw [h.written, List.flatMap_append]
        simp [hposted]
      · rcases List.mem_append.mp hc' with hc' | hc'
        · exact h.served c' hc'
        · obtain rfl := List.mem_singleton.mp hc'
          exact ⟨o, ho, happ o ho⟩

/-- What the calculation's thread posts is for the calculation under way. -/
theorem Serves.calculationStep (h : Serves app s sent) {change : Calculation → Calculation}
    {m : List ProviderMessage}
    (hchange : ∀ c, s.calculation = some c → c.outcome = none →
      (change c).queue = c.queue ++ m ∧ (change c).posted = c.posted ++ m ∧
        ∀ o, (change c).outcome = some o → app (change c).request (change c).reported o)
    (hstep : s.calculationStep change = some s') : Serves app s' sent := by
  obtain ⟨c, hc, hrunning, -, hstopped, rfl⟩ := calculationStep_cases hstep
  obtain ⟨hqueue, hpost, happ⟩ := hchange c hc hrunning
  obtain ⟨-, ⟨rest, hposted, hrest, hjoin⟩, hunanswered⟩ := h.calculation c hc
  have hnot : s.ipc ≠ .joining := by
    intro hjoining
    obtain ⟨-, o, ho⟩ := hjoin hjoining
    rw [hrunning] at ho
    cases ho
  refine ⟨h.written, h.served, fun hne => ?_, by simp, fun c' hc' => ?_⟩
  · rw [← h.dispatched hne, hc]
    rfl
  · cases hc'
    refine ⟨happ, ⟨rest ++ m, ?_, fun _ _ => ?_, fun hjoining => absurd hjoining hnot⟩,
      hunanswered⟩
    · rw [hpost, hposted, List.append_assoc]
    · rw [hqueue, hrest hnot hstopped]

theorem Serves.step (h : Serves app s sent) {e : Event} (hallowed : Allowed app s e)
    (hstep : s.step asserts e = some s') : ∃ sent', Serves app s' sent' := by
  cases e with
  | ipc ok ready => exact h.ipcStep (ipcStep_cases hstep)
  | receive id message =>
      obtain ⟨t, ht, rfl⟩ := Option.map_eq_some_iff.mp hstep
      cases ht
      simp only [State.emission, Option.toList_none, List.append_nil]
      exact ⟨sent, h.written, h.served, h.dispatched, h.idle, h.calculation⟩
  | report progress =>
      obtain ⟨t, ht, rfl⟩ := Option.map_eq_some_iff.mp hstep
      have hserves : Serves app t sent := by
        refine h.calculationStep (m := [progressMessage progress])
          (fun c hc hrunning => ⟨rfl, ?_, ?_⟩) ht
        · simp [Calculation.posted, Calculation.post, hrunning]
        · simp [Calculation.post, hrunning]
      obtain ⟨c, -, -, -, -, rfl⟩ := calculationStep_cases ht
      exact ⟨sent, by simpa [State.emission] using hserves⟩
  | finish o =>
      obtain ⟨t, ht, rfl⟩ := Option.map_eq_some_iff.mp hstep
      have hserves : Serves app t sent := by
        refine h.calculationStep (m := [o.message])
          (fun c hc hrunning => ⟨rfl, ?_, fun o' ho' => ?_⟩) ht
        · simp [Calculation.posted, Calculation.post, hrunning]
        · cases ho'
          exact hallowed c hc
      obtain ⟨c, -, -, -, -, rfl⟩ := calculationStep_cases ht
      exact ⟨sent, by simpa [State.emission] using hserves⟩

end

section
variable {asserts ok ready : Bool} {s s' : State}

/-- What holds of the registration in every state. -/
structure Registered (s : State) : Prop where
  first : RegistersFirst s.pid s.written
  once : s.ipc ≠ .stopped → (s.ipc = .registering ↔ s.written = [])

theorem Registered.write (h : Registered s) {m : ProviderMessage} {t : State}
    (hpid : t.pid = s.pid) (hwritten : t.written = s.written ++ [m]) (hstopped : s.ipc ≠ .stopped)
    (hs : s.ipc ≠ .registering) (ht : t.ipc ≠ .registering)
    (hm : ∀ registration, m ≠ .registration registration) : Registered t := by
  have hne : s.written ≠ [] := fun hnil => hs ((h.once hstopped).mpr hnil)
  refine ⟨?_, fun _ => by simp [ht, hwritten]⟩
  rw [hpid, hwritten]
  exact h.first.append hne hm

theorem Registered.keep (h : Registered s) {t : State} (hpid : t.pid = s.pid)
    (hwritten : t.written = s.written)
    (hipc : t.ipc ≠ .stopped → s.ipc ≠ .stopped ∧ (t.ipc = .registering ↔ s.ipc = .registering)) :
    Registered t := by
  refine ⟨by rw [hpid, hwritten]; exact h.first, fun ht => ?_⟩
  rw [hwritten, (hipc ht).2]
  exact h.once (hipc ht).1

theorem Registered.ipcStep {app : App} {sent : List ProviderMessage} (h : Registered s)
    (hserves : Serves app s sent) (hstep : IpcStep asserts s ok ready s') : Registered s' := by
  cases hstep with
  | fail _ => exact h.keep rfl rfl fun hstopped => absurd rfl hstopped
  | register hipc =>
      have hnil := (h.once (by simp [hipc])).mp hipc
      refine ⟨.inr ⟨[], by simp [hnil], fun _ => List.not_mem_nil⟩, fun _ => by simp⟩
  | pong code hipc | pongDuring code hipc =>
      exact h.write rfl rfl (by simp [hipc]) (by simp [hipc]) (by simp) (by simp)
  | transmit waited c message queue hipc hc hq hm =>
      refine h.write rfl rfl (by simp [hipc]) (by simp [hipc]) (by simp [hipc])
        fun registration hr => ?_
      have hout := hserves.isOutput_head hipc hc hq
      rw [hr] at hout
      cases hout
  | answer waited c message queue hipc hc hq hm =>
      refine h.write rfl rfl (by simp [hipc]) (by simp [hipc]) (by simp) fun registration hr => ?_
      rw [hr] at hm
      cases hm
  | drained waited c hipc hc hq =>
      exact h.keep rfl rfl fun _ => by cases waited <;> simp [hipc]
  | wake hipc | poll hipc =>
      exact h.keep rfl rfl fun _ => by cases ready <;> simp [hipc]
  | ignore id request incoming hipc hin =>
      exact h.keep rfl rfl fun _ => by cases asserts <;> simp [hipc]
  | begin | ping | lock | pingDuring | join =>
      exact h.keep rfl rfl fun _ => by simp [*]

/-- What holds of the PONG messages in every state. -/
def Ponged (s : State) : Prop :=
  ∃ owed, s.pinged = pongs s.written ++ owed ∧ owed.length ≤ 1 ∧
    (s.ipc ≠ .stopped → owed = s.ipc.owes)

theorem Ponged.keep (h : Ponged s) {t : State} (hpinged : t.pinged = s.pinged)
    (hwritten : pongs t.written = pongs s.written)
    (hipc : t.ipc ≠ .stopped → s.ipc ≠ .stopped ∧ t.ipc.owes = s.ipc.owes) : Ponged t := by
  obtain ⟨owed, howed, hlength, howes⟩ := h
  refine ⟨owed, by rw [hpinged, hwritten]; exact howed, hlength, fun ht => ?_⟩
  rw [(hipc ht).2]
  exact howes (hipc ht).1

theorem Ponged.ipcStep {app : App} {sent : List ProviderMessage} (h : Ponged s)
    (hserves : Serves app s sent) (hstep : IpcStep asserts s ok ready s') : Ponged s' := by
  cases hstep with
  | fail _ => exact h.keep rfl rfl fun hstopped => absurd rfl hstopped
  | register hipc =>
      exact h.keep rfl (by simp [pongs]) fun _ => by simp [hipc, IpcThread.owes]
  | begin id request incoming hipc hin =>
      exact h.keep rfl rfl fun _ => by simp [hipc, IpcThread.owes]
  | lock hipc => exact h.keep rfl rfl fun _ => by simp [hipc, IpcThread.owes]
  | join c outcome hipc hc ho => exact h.keep rfl rfl fun _ => by simp [hipc, IpcThread.owes]
  | drained waited c hipc hc hq =>
      exact h.keep rfl rfl fun _ => by cases waited <;> simp [hipc, IpcThread.owes]
  | wake hipc | poll hipc =>
      exact h.keep rfl rfl fun _ => by cases ready <;> simp [hipc, IpcThread.owes]
  | ignore id request incoming hipc hin =>
      exact h.keep rfl rfl fun _ => by cases asserts <;> simp_all [IpcThread.owes]
  | ping id code incoming hipc hin | pingDuring id code incoming hipc hin =>
      obtain ⟨owed, howed, -, howes⟩ := h
      have hnil : owed = [] := (howes (by simp [hipc])).trans (by rw [hipc]; rfl)
      rw [hnil, List.append_nil] at howed
      exact ⟨[code], by rw [howed], by simp, fun _ => rfl⟩
  | pong code hipc | pongDuring code hipc =>
      obtain ⟨owed, howed, -, howes⟩ := h
      rw [howes (by simp [hipc]), hipc, IpcThread.owes] at howed
      exact ⟨[], by simp [howed, pongs], by simp, fun _ => rfl⟩
  | transmit waited c message queue hipc hc hq hm =>
      have hpongs := pongs_of_isOutput (hserves.isOutput_head hipc hc hq)
      exact h.keep rfl (by simp [hpongs]) fun _ => by simp [hipc]
  | answer waited c message queue hipc hc hq hm =>
      have hpongs := pongs_of_isOutput (hserves.isOutput_head hipc hc hq)
      exact h.keep rfl (by simp [hpongs]) fun _ => by simp [hipc, IpcThread.owes]

end

/-! ## Runs of a provider -/

section
variable {app : App} {asserts : Bool} {s s' : State}

theorem proceed_eq {e : Event} (he : ∀ ok ready, e ≠ .ipc ok ready)
    (h : s.step asserts e = some s') :
    s'.pid = s.pid ∧ s'.ipc = s.ipc ∧ s'.written = s.written ∧ s'.pinged = s.pinged := by
  obtain ⟨t, ht, rfl⟩ := Option.map_eq_some_iff.mp h
  cases e with
  | ipc ok ready => exact absurd rfl (he ok ready)
  | receive id message =>
      cases ht
      simp [State.emission]
  | report progress =>
      obtain ⟨c, -, -, -, -, rfl⟩ := calculationStep_cases ht
      simp [State.emission]
  | finish outcome =>
      obtain ⟨c, -, -, -, -, rfl⟩ := calculationStep_cases ht
      simp [State.emission]

/-- What holds in every state of a provider. -/
structure Works (app : App) (s : State) : Prop where
  registered : Registered s
  ponged : Ponged s
  serves : ∃ sent, Serves app s sent

theorem Works.step (h : Works app s) {e : Event} (hallowed : Allowed app s e)
    (hstep : s.step asserts e = some s') : Works app s' := by
  obtain ⟨sent, hserves⟩ := h.serves
  refine ⟨?_, ?_, hserves.step hallowed hstep⟩
  · by_cases he : ∃ ok ready, e = .ipc ok ready
    · obtain ⟨ok, ready, rfl⟩ := he
      exact h.registered.ipcStep hserves (ipcStep_cases hstep)
    · obtain ⟨hpid, hipc, hwritten, -⟩ := proceed_eq (fun ok ready h => he ⟨ok, ready, h⟩) hstep
      exact h.registered.keep hpid hwritten fun hne => by
        rw [hipc]
        exact ⟨hipc ▸ hne, Iff.rfl⟩
  · by_cases he : ∃ ok ready, e = .ipc ok ready
    · obtain ⟨ok, ready, rfl⟩ := he
      exact h.ponged.ipcStep hserves (ipcStep_cases hstep)
    · obtain ⟨-, hipc, hwritten, hpinged⟩ :=
        proceed_eq (fun ok ready h => he ⟨ok, ready, h⟩) hstep
      exact h.ponged.keep hpinged (by rw [hwritten]) fun hne => by
        rw [hipc]
        exact ⟨hipc ▸ hne, rfl⟩

theorem works_start (pid : Bytes) : Works app { pid } :=
  ⟨⟨.inl rfl, fun _ => by simp⟩, ⟨[], by simp [pongs], by simp, fun _ => rfl⟩,
    [], by simp [outputs], by simp, fun _ => rfl, fun _ => rfl, fun c hc => by cases hc⟩

theorem works_of_reachable
    (h : Transition.Reachable (State.step asserts) (Allowed app) {s | ∃ pid, s = { pid }} s) :
    Works app s := by
  refine h.invariant ?_ fun s s' e hs hok hstep => hs.step hok hstep
  rintro s ⟨pid, rfl⟩
  exact works_start pid

/-- In every run, whatever the threads, the supervisor and the network do: a provider registers
first; it answers each PING message that it has read, in their order and with their codes, but for
the last at most; and for each request in turn it writes the progress that the function reported
and then one result or failure, as the app gives it. -/
theorem written_of_reachable
    (h : Transition.Reachable (State.step asserts) (Allowed app) {s | ∃ pid, s = { pid }} s) :
    RegistersFirst s.pid s.written ∧
      (∃ owed, s.pinged = pongs s.written ++ owed ∧ owed.length ≤ 1) ∧
      (∃ sent, outputs s.written = s.served.flatMap Calculation.posted ++ sent ∧
        (s.calculation = none → sent = []) ∧ ∀ c, s.calculation = some c → sent <+: c.posted) ∧
      ∀ c ∈ s.served, ∃ o, c.outcome = some o ∧ app c.request c.reported o := by
  obtain ⟨hregistered, ⟨owed, howed, hlength, -⟩, sent, hserves⟩ := works_of_reachable h
  refine ⟨hregistered.first, ⟨owed, howed, hlength⟩, ⟨sent, hserves.written, hserves.idle,
    fun c hc => ?_⟩, hserves.served⟩
  obtain ⟨-, ⟨rest, hposted, -, -⟩, -⟩ := hserves.calculation c hc
  exact ⟨rest, hposted.symm⟩

end

/-! ## Answers are written soon -/

/-- A step of `provide_calculations` in which reads and writes succeed, and the socket only seems
to have data if it has. -/
def Prompt (s : State) : Event → Prop
  | .ipc ok ready =>
      ok = true ∧ match s.ipc with
        | .polling => ready = true → s.incoming ≠ []
        | _ => True
  | _ => False

/-- How many steps it takes at most until the answer to a finished calculation is written. -/
def State.stepsToAnswer (s : State) : ℕ :=
  let queued := (s.calculation.map (·.queue.length)).getD 0
  match s.ipc with
  | .transmitting _ => queued
  | .locking => queued + 1
  | .polling => 3 * s.incoming.length + queued + 2
  | .monitoring => 3 * s.incoming.length + queued + 1
  | .replying _ | .waiting => 3 * s.incoming.length + queued + 3
  | _ => 0

/-- The function has returned or thrown, its last message is not written, and no FUNCTION message
will stop the provider. -/
structure Finished (asserts : Bool) (o : Outcome) (s : State) (c : Calculation) : Prop where
  calculation : s.calculation = some c
  outcome : c.outcome = some o
  running : s.ipc ≠ .joining ∧ s.ipc ≠ .stopped
  safe : asserts = true → ∀ id request, (id, .function request) ∉ s.incoming

section
variable {app : App} {asserts : Bool} {s s' : State} {o : Outcome} {c : Calculation}

/-- The answer of a finished calculation is in the queue until it is written. -/
theorem Finished.mem_queue (h : Finished asserts o s c) {sent : List ProviderMessage}
    (hserves : Serves app s sent) : o.message ∈ c.queue := by
  obtain ⟨-, ⟨rest, hposted, hrest, -⟩, hunanswered⟩ := hserves.calculation c h.calculation
  have hmem : o.message ∈ c.posted := by
    simp [Calculation.posted, h.outcome]
  rw [hposted, hrest h.running.1 h.running.2] at hmem
  refine (List.mem_append.mp hmem).resolve_left fun hsent => ?_
  have hfalse := hunanswered h.running.1 h.running.2 _ hsent
  rw [isAnswer_message] at hfalse
  cases hfalse

/-- Each step brings the answer nearer, whether waits end by signals or not. -/
theorem Finished.step (h : Finished asserts o s c) (hworks : Works app s) {ok ready : Bool}
    (hprompt : Prompt s (.ipc ok ready)) (hstep : s.step asserts (.ipc ok ready) = some s') :
    o.message ∈ s'.written ∨
      ∃ c', Finished asserts o s' c' ∧ s'.stepsToAnswer < s.stepsToAnswer := by
  obtain ⟨sent, hserves⟩ := hworks.serves
  obtain ⟨rfl, hready⟩ := hprompt
  have hmem := h.mem_queue hserves
  have hdispatched : s.ipc.dispatched = true := by
    rw [← hserves.dispatched h.running.2, h.calculation]
    rfl
  cases ipcStep_cases hstep with
  | fail hok => cases hok
  | register hipc | begin id request incoming hipc hin | ping id code incoming hipc hin
  | pong code hipc =>
      rw [hipc] at hdispatched
      cases hdispatched
  | join c' outcome hipc hc ho => exact absurd hipc h.running.1
  | lock hipc =>
      refine .inr ⟨c, ⟨h.calculation, h.outcome, by simp, h.safe⟩, ?_⟩
      simp [State.stepsToAnswer, hipc]
  | drained waited c' hipc hc hq =>
      obtain rfl := Option.some.inj (h.calculation.symm.trans hc)
      rw [hq] at hmem
      exact absurd hmem List.not_mem_nil
  | transmit waited c' message queue hipc hc hq hm =>
      obtain rfl := Option.some.inj (h.calculation.symm.trans hc)
      refine .inr ⟨_, ⟨rfl, h.outcome, h.running, h.safe⟩, ?_⟩
      simp [State.stepsToAnswer, hipc, hc, hq]
  | answer waited c' message queue hipc hc hq hm =>
      obtain rfl := Option.some.inj (h.calculation.symm.trans hc)
      obtain ⟨-, ⟨rest, hposted, hrest, -⟩, -⟩ := hserves.calculation c hc
      rw [hrest h.running.1 h.running.2, hq] at hposted
      obtain ⟨rfl, o', ho', rfl⟩ := posted_answer hposted hm
      obtain rfl := Option.some.inj (h.outcome.symm.trans ho')
      exact .inl (List.mem_append_right _ List.mem_cons_self)
  | wake hipc =>
      refine .inr ⟨c, ⟨h.calculation, h.outcome, by cases ready <;> simp, h.safe⟩, ?_⟩
      cases ready <;> simp only [State.stepsToAnswer, hipc, if_true, Bool.false_eq_true, if_false]
      · omega
      · omega
  | poll hipc =>
      refine .inr ⟨c, ⟨h.calculation, h.outcome, by cases ready <;> simp, h.safe⟩, ?_⟩
      cases ready with
      | true => simp [State.stepsToAnswer, hipc]
      | false =>
          simp only [State.stepsToAnswer, hipc, Bool.false_eq_true, if_false]
          omega
  | ignore id request incoming hipc hin =>
      have hoff : asserts = false := by
        rw [← Bool.not_eq_true]
        intro hasserts
        refine h.safe hasserts id request ?_
        rw [hin]
        exact List.mem_cons_self
      refine .inr ⟨c, ⟨h.calculation, h.outcome, by simp [hoff], by simp [hoff]⟩, ?_⟩
      simp only [State.stepsToAnswer, hipc, hoff, hin, List.length_cons]
      simp
      omega
  | pingDuring id code incoming hipc hin =>
      refine .inr ⟨c, ⟨h.calculation, h.outcome, by simp, fun hasserts id' request hmem' => ?_⟩,
        ?_⟩
      · refine h.safe hasserts id' request ?_
        rw [hin]
        exact List.mem_cons_of_mem _ hmem'
      · simp only [State.stepsToAnswer, hipc, hin, List.length_cons]
        omega
  | pongDuring code hipc =>
      refine .inr ⟨c, ⟨h.calculation, h.outcome, by simp, h.safe⟩, ?_⟩
      simp [State.stepsToAnswer, hipc]

/-- The thread is not about to read where there is nothing to read. -/
def NotBlocked (s : State) : Prop := s.ipc = .monitoring → s.incoming ≠ []

/-- There is a step to take. -/
theorem Finished.exists_step (h : Finished asserts o s c) (hworks : Works app s)
    (hs : NotBlocked s) :
    ∃ ready s', Prompt s (.ipc true ready) ∧ s.step asserts (.ipc true ready) = some s' := by
  obtain ⟨sent, hserves⟩ := hworks.serves
  have hdispatched : s.ipc.dispatched = true := by
    rw [← hserves.dispatched h.running.2, h.calculation]
    rfl
  have hproceed : (∃ t, s.ipcStep asserts true false = some t) ∧ Prompt s (.ipc true false) := by
    cases hipc : s.ipc with
    | registering | reading | ponging => simp [hipc, IpcThread.dispatched] at hdispatched
    | joining => exact absurd hipc h.running.1
    | stopped => exact absurd hipc h.running.2
    | monitoring =>
        cases hin : s.incoming with
        | nil => exact absurd hin (hs hipc)
        | cons m incoming =>
            obtain ⟨id, m⟩ := m
            cases m <;> simp [State.ipcStep, Prompt, hipc, hin]
    | transmitting waited => simp [State.ipcStep, Prompt, hipc, h.calculation]
    | locking | waiting | polling | replying => simp [State.ipcStep, Prompt, hipc]
  obtain ⟨⟨t, ht⟩, hprompt⟩ := hproceed
  refine ⟨false, { t with written := s.written ++ (s.emission (.ipc true false)).toList },
    hprompt, ?_⟩
  rw [State.step, State.proceed, ht]
  rfl

theorem NotBlocked.step {ready : Bool} (hprompt : Prompt s (.ipc true ready))
    (hstep : s.step asserts (.ipc true ready) = some s') : NotBlocked s' := by
  intro hs'
  obtain ⟨-, hready⟩ := hprompt
  cases ipcStep_cases hstep with
  | poll hipc =>
      rw [hipc] at hready
      refine hready ?_
      simpa using hs'
  | fail hok => cases hok
  | transmit waited c message queue hipc hc hq hm =>
      rw [hipc] at hs'
      cases hs'
  | drained waited => cases waited <;> cases hs'
  | wake => cases ready <;> cases hs'
  | ignore => cases asserts <;> cases hs'
  | _ => cases hs'

theorem written_subset {e : Event} (hstep : s.step asserts e = some s') :
    s.written ⊆ s'.written := by
  by_cases he : ∃ ok ready, e = .ipc ok ready
  · obtain ⟨ok, ready, rfl⟩ := he
    cases ipcStep_cases hstep <;> simp
  · rw [(proceed_eq (fun ok ready h => he ⟨ok, ready, h⟩) hstep).2.2.1]
    exact fun _ hm => hm

theorem written_subset_run {es : List Event}
    (hrun : Transition.run (State.step asserts) s es = some s') : s.written ⊆ s'.written := by
  induction es generalizing s with
  | nil =>
      cases hrun
      exact fun _ hm => hm
  | cons e es ih =>
      obtain ⟨t, ht, hrest⟩ := Option.bind_eq_some_iff.mp hrun
      exact fun m hm => ih hrest (written_subset ht hm)

/-- In every run of prompt steps that is long enough the answer gets written. -/
theorem Finished.written_of_run (h : Finished asserts o s c) (hworks : Works app s)
    {es : List Event} (hprompt : Transition.StepsMeet (State.step asserts) Prompt s es)
    (hrun : Transition.run (State.step asserts) s es = some s')
    (hlength : s.stepsToAnswer < es.length) : o.message ∈ s'.written := by
  induction es generalizing s c with
  | nil => cases hlength
  | cons e es ih =>
      obtain ⟨t, ht, hrest⟩ := Option.bind_eq_some_iff.mp hrun
      obtain ⟨he, hes⟩ := hprompt t ht
      cases e with
      | receive | report | finish => exact he.elim
      | ipc ok ready =>
          rcases h.step hworks he ht with hwritten | ⟨c', hfinished, hlt⟩
          · exact written_subset_run hrest hwritten
          · refine ih hfinished (hworks.step (e := .ipc ok ready) trivial ht) hes hrest ?_
            rw [List.length_cons] at hlength
            omega

/-- There is a run of prompt steps in which the answer gets written. -/
theorem Finished.exists_run (h : Finished asserts o s c) (hworks : Works app s)
    (hs : NotBlocked s) : ∃ es s', Transition.StepsMeet (State.step asserts) Prompt s es ∧
      Transition.run (State.step asserts) s es = some s' ∧ o.message ∈ s'.written := by
  induction hn : s.stepsToAnswer using Nat.strong_induction_on generalizing s c with
  | h n ih =>
      obtain ⟨ready, t, hprompt, hstep⟩ := h.exists_step hworks hs
      have hmeets {es : List Event}
          (hes : Transition.StepsMeet (State.step asserts) Prompt t es) :
          Transition.StepsMeet (State.step asserts) Prompt s (.ipc true ready :: es) :=
        (Transition.stepsMeet_cons hstep).mpr ⟨hprompt, hes⟩
      rcases h.step hworks hprompt hstep with hwritten | ⟨c', hfinished, hlt⟩
      · exact ⟨[.ipc true ready], t, hmeets trivial, by simp [Transition.run, hstep], hwritten⟩
      · obtain ⟨es, s', hes, hrun, hwritten⟩ := ih t.stepsToAnswer (hn ▸ hlt) hfinished
          (hworks.step (e := .ipc true ready) trivial hstep) (.step hprompt hstep) rfl
        exact ⟨_, s', hmeets hes, by simp [Transition.run, hstep, hrun], hwritten⟩

/-- Once the function has returned or thrown, its result or failure is written whatever signals
get lost: no run of the provider's own steps that is longer than `stepsToAnswer` is without it,
and there is always such a run to go on with. -/
theorem answered_of_finished
    (hreachable :
      Transition.Reachable (State.step asserts) (Allowed app) {s | ∃ pid, s = { pid }} s)
    (h : Finished asserts o s c) (hs : NotBlocked s) :
    (∀ es s', Transition.StepsMeet (State.step asserts) Prompt s es →
      Transition.run (State.step asserts) s es = some s' → s.stepsToAnswer < es.length →
        o.message ∈ s'.written) ∧
    ∃ es s', Transition.StepsMeet (State.step asserts) Prompt s es ∧
      Transition.run (State.step asserts) s es = some s' ∧ o.message ∈ s'.written :=
  ⟨fun _ _ hprompt hrun hlength =>
      h.written_of_run (works_of_reachable hreachable) hprompt hrun hlength,
    h.exists_run (works_of_reachable hreachable) hs⟩

end

/-! ## A calculation with a ping -/

/-- An app whose functions never throw. -/
def total : App := fun _ _ o => ∃ v, o = .returned v

/-- A function is asked for and returns; meanwhile a PING message arrives. -/
def pingedEvents : List Event :=
  [.receive 0 (.function ⟨[1], [.integer 5]⟩), .ipc true false, .ipc true false,
    .receive 1 (.ping [9]), .finish (.returned (.integer 5))]

def pingedEvents' : List Event :=
  [.ipc true false, .ipc true false, .ipc true false, .ipc true false, .ipc true false]

theorem allowed_pinged : ∀ e ∈ pingedEvents ++ pingedEvents', ∀ s, Allowed total s e := by
  simp [pingedEvents, pingedEvents', Allowed, total]

theorem written_pinged : ∃ s,
    Transition.run (State.step true) { pid := [3] } (pingedEvents ++ pingedEvents') = some s ∧
      s.written = [.registration ⟨0, [3]⟩, .result (.integer 5), .pong [9]] ∧
        RegistersFirst [3] s.written := by
  obtain ⟨s, hrun⟩ : ∃ s, Transition.run (State.step true) { pid := [3] }
      (pingedEvents ++ pingedEvents') = some s := ⟨_, rfl⟩
  have hs : (Transition.run (State.step true) { pid := [3] } (pingedEvents ++ pingedEvents')).map
      (fun s => (s.pid, s.written)) =
        some ([3], [.registration ⟨0, [3]⟩, .result (.integer 5), .pong [9]]) := rfl
  rw [hrun] at hs
  obtain ⟨hpid, hwritten⟩ := Prod.mk.inj (Option.some.inj hs)
  have hfirst := (written_of_reachable (.run_of_stepsMeet (.start ⟨_, rfl⟩)
    (Transition.stepsMeet_of_forall_mem allowed_pinged _) hrun)).1
  rw [hpid] at hfirst
  exact ⟨s, hrun, hwritten, hfirst⟩

theorem answered_pinged : ∃ s,
    Transition.run (State.step true) { pid := [3] } pingedEvents = some s ∧
      s.stepsToAnswer = 2 ∧ ∃ es s', Transition.StepsMeet (State.step true) Prompt s es ∧
        Transition.run (State.step true) s es = some s' ∧ .result (.integer 5) ∈ s'.written := by
  have hrun : Transition.run (State.step true) { pid := [3] } pingedEvents =
      some { pid := [3], ipc := .locking,
             calculation := some ⟨0, ⟨[1], [.integer 5]⟩, [], some (.returned (.integer 5)),
               [.result (.integer 5)]⟩,
             incoming := [(1, .ping [9])], written := [.registration ⟨0, [3]⟩] } := rfl
  refine ⟨_, hrun, rfl, ?_⟩
  have hallowed : ∀ e ∈ pingedEvents, ∀ s, Allowed total s e :=
    fun e he => allowed_pinged e (List.mem_append_left _ he)
  exact (answered_of_finished
    (.run_of_stepsMeet (.start ⟨_, rfl⟩) (Transition.stepsMeet_of_forall_mem hallowed _) hrun)
    (o := .returned (.integer 5)) ⟨rfl, rfl, by simp, by simp⟩ (by simp [NotBlocked])).2

end Cradle.Provider
