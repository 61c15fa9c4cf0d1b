import Cradle.Remote.ResultVisibility

/-!
# The completion protocol of an asynchronous resolution

The server's `resolve_async` resolves the request and then calls `set_result`,
`set_cache_record_id` and `on_value_complete`, in the RPC server and in the loopback
service alike.  The client polls the status until it is FINISHED, and then gets the
response.  FINISHED is published by `set_result`, the first of the three calls, so a
client that polls in time may get a response without the record id, and with blob files
that are not completed.
-/

namespace Cradle.Remote

open Threads

/-! ## The two parties -/

/-- The services that offer `get_async_response`. -/
inductive Service
  | rpclib | loopback
  deriving DecidableEq

/-- `handle_get_async_response` and `loopback_service::get_async_response`: their braced
initializers evaluate from left to right. -/
def Service.getAsyncResponse : Service → List Instr
  | .rpclib => [.getCacheRecordId, .checkGetResult, .readResult]
  | .loopback => [.checkGetResult, .readResult, .getCacheRecordId]

/-- How `resolve_serialized_local` ends. -/
inductive Outcome
  | value (b : Blob)
  | cancelled
  | error (errmsg : String)

/-- The rest of `resolve_async`, after the resolution. -/
def Outcome.code (recordId : ℕ) : Outcome → List Instr
  | .value b => (Call.setResult b).code ++ [.setCacheRecordId recordId, .onValueComplete]
  | .cancelled => (Call.updateStatus .cancelled).code
  | .error errmsg => (Call.updateStatusError errmsg).code

/-- The accesses made during the resolution: updates of statuses, and blob files being
made. -/
def Instr.resolving : Instr → Bool
  | .makeBlobFileWriter _ => true
  | i => i.updating

/-- The result that the instruction stores. -/
def Instr.storing : Instr → Option Blob
  | .storeResult b => some b
  | _ => none

/-- A submitted request, with the lock that `alloc_cache_record_lock_if_needed` gave. -/
structure Submission where
  service : Service
  needRecordLock : Bool
  recordId : ℕ
  recordId_set : needRecordLock = true → recordId ≠ 0

/-- `set_lock_ptr_record` on the client. -/
def setLockPtrRecord (needRecordLock : Bool) (recordId : ℕ) : Except String (Option ℕ) :=
  if needRecordLock then
    if recordId = 0 then .error "remote did not set record_id" else .ok (some recordId)
  else .ok none

/-- The response carries the id of the lock that was requested, and the blob files that the
result refers to are completed. -/
def Observation.Complete (sub : Submission) (files : Blob → List Bytes) : Observation → Prop
  | .recordId id => setLockPtrRecord sub.needRecordLock id
      = .ok (if sub.needRecordLock then some sub.recordId else none)
  | .result b _ completed => ∀ f ∈ files b, f ∈ completed
  | _ => True

/-- The server's thread, and the threads that act for clients and for cancellations. -/
structure Completion where
  context : RootContext
  server : Thread Unit Instr
  clients : List (Thread Unit Instr) := []
  cancellers : List (Thread Unit Instr) := []

namespace Completion

inductive Action
  | server
  /-- A client that starts to poll. -/
  | poll
  | client (n : ℕ)
  /-- `cancel_delegate` on the root. -/
  | cancel
  | canceller (n : ℕ)
  /-- Another resolution has completed a blob file. -/
  | completed (path : Bytes)

def step (sub : Submission) (s : Completion) : Action → Option Completion
  | .server => (stepThread RootContext.exec s.context s.server).map fun r =>
      { s with context := r.1, server := r.2 }
  | .poll => some { s with clients :=
      s.clients ++ [{ tag := (), code := [.poll sub.service.getAsyncResponse] }] }
  | .client n => (stepPool RootContext.exec s.context s.clients n).map fun r =>
      { s with context := r.1, clients := r.2 }
  | .cancel => some { s with cancellers :=
      s.cancellers ++ [{ tag := (), code := (Call.updateStatus .cancelled).code }] }
  | .canceller n => (stepPool RootContext.exec s.context s.cancellers n).map fun r =>
      { s with context := r.1, cancellers := r.2 }
  | .completed path => some { s with context :=
      { s.context with completed := path :: s.context.completed } }

/-- A new context, as `submit_async` prepares it; the resolution may do anything and have
any outcome, and an exception in the calls after it is caught. -/
def start (sub : Submission) : Set Completion :=
  { s | s.context.usingResult = true ∧ s.context.trackingBlobFileWriters = true
      ∧ s.context.observations = [] ∧ s.clients = [] ∧ s.cancellers = []
      ∧ ∃ (work : List Instr) (out : Outcome) (errmsg : String),
          (∀ i ∈ work, i.resolving = true)
          ∧ s.server = { tag := (), code := work ++ out.code sub.recordId,
                         handler := (Call.updateStatusError errmsg).code } }

/-- A client does not find the status FINISHED before `resolve_async` has returned, and
when the result is set, each of its blob files was made by this resolution or is
completed. -/
def Orderly (files : Blob → List Bytes) (s : Completion) : Action → Prop
  | .server => ∀ i ∈ s.server.code.head?, ∀ b ∈ i.storing,
      ∀ f ∈ files b, f ∈ s.context.blobFileWriters ∨ f ∈ s.context.completed
  | .client n => ∀ t ∈ s.clients[n]?, (∃ i ∈ t.code.head?, i.looking = true) →
      s.context.status = .finished → s.server.code = []
  | _ => True

instance (files : Blob → List Bytes) (s : Completion) (a : Action) :
    Decidable (s.Orderly files a) :=
  match a with
  | .server => inferInstanceAs (Decidable (∀ i ∈ s.server.code.head?, ∀ b ∈ i.storing,
      ∀ f ∈ files b, f ∈ s.context.blobFileWriters ∨ f ∈ s.context.completed))
  | .client n => inferInstanceAs (Decidable (∀ t ∈ s.clients[n]?, (∃ i ∈ t.code.head?,
      i.looking = true) → s.context.status = .finished → s.server.code = []))
  | .poll | .cancel | .canceller _ | .completed _ => .isTrue trivial

end Completion

/-! ## Accesses that fail or cancel -/

/-- The instruction belongs to the end of a resolution that fails, or to a cancellation: it
does not store FINISHED in the root. -/
def Instr.failing : Instr → Bool
  | .updateSub _ _ | .storeSub _ _ | .storeErrmsg _ => true
  | .updateBase st | .store st | .redirect st => st ≠ .finished
  | _ => false

/-- The instruction updates a context below the root. -/
def Instr.subUpdate : Instr → Bool
  | .updateSub _ _ | .storeSub _ _ => true
  | _ => false

/-- What another thread may do to the context: the response stays, blob files may be
completed, and the status does not become FINISHED. -/
structure RootContext.Others (c c' : RootContext) : Prop where
  status : c'.status = .finished → c.status = .finished
  result : c'.result = c.result
  recordId : c'.cacheRecordId = c.cacheRecordId
  writers : c'.blobFileWriters = c.blobFileWriters
  completed : ∀ f ∈ c.completed, f ∈ c'.completed
  tracking : c'.trackingBlobFileWriters = c.trackingBlobFileWriters

section
variable {c c' : RootContext} {i : Instr} {pushed : List Instr}

/-- An update below the root leaves the root alone. -/
theorem exec_subUpdate (hi : i.subUpdate = true) : ∃ c' pushed, c.exec i = .next c' pushed
    ∧ (∀ j ∈ pushed, j.subUpdate = true) ∧ c'.status = c.status ∧ c.Others c'
    ∧ c'.observations = c.observations := by
  cases i with
  | updateSub n st =>
      refine ⟨_, _, rfl, fun j hj => ?_, rfl, ⟨id, rfl, rfl, rfl, fun f hf => hf, rfl⟩, rfl⟩
      rcases mem_updates hj with ⟨m, rfl⟩ | rfl
      · rfl
      · rfl
  | storeSub n st =>
      exact ⟨_, _, rfl, by simp, rfl, ⟨id, rfl, rfl, rfl, fun f hf => hf, rfl⟩, rfl⟩
  | _ => simp [Instr.subUpdate] at hi

/-- Accesses that fail or cancel change at most the status of the root, and not to
FINISHED. -/
theorem exec_failing (hi : i.failing = true) : ∃ c' pushed, c.exec i = .next c' pushed
    ∧ (∀ j ∈ pushed, j.failing = true) ∧ c.Others c' ∧ c'.observations = c.observations
    ∧ (i.leaving = true → c'.status ≠ .finished ∨ ∃ j ∈ pushed, j.leaving = true) := by
  have hsame : c.Others c := ⟨id, rfl, rfl, rfl, fun f hf => hf, rfl⟩
  cases i with
  | updateSub n st =>
      refine ⟨_, _, rfl, fun j hj => ?_, hsame, rfl, by simp [Instr.leaving]⟩
      rcases mem_updates hj with ⟨m, rfl⟩ | rfl
      · rfl
      · rfl
  | storeSub n st =>
      exact ⟨_, _, rfl, by simp, ⟨id, rfl, rfl, rfl, fun f hf => hf, rfl⟩, rfl,
        by simp [Instr.leaving]⟩
  | updateBase st =>
      refine ⟨_, _, rfl, fun j hj => ?_, hsame, rfl,
        fun hl => .inr ⟨.store st, by simp, by simpa [Instr.leaving] using hl⟩⟩
      rcases mem_updates hj with ⟨m, rfl⟩ | rfl
      · rfl
      · simpa [Instr.failing] using hi
  | store st =>
      have hst : st ≠ .finished := by simpa [Instr.failing] using hi
      exact ⟨_, _, rfl, by simp, ⟨fun h => absurd h hst, rfl, rfl, rfl, fun f hf => hf, rfl⟩, rfl,
        fun _ => .inl hst⟩
  | redirect st =>
      have hst : st ≠ .finished := by simpa [Instr.failing] using hi
      refine ⟨_, _, rfl, fun j hj => ?_, hsame, rfl,
        fun _ => .inr ⟨_, List.mem_singleton.mpr rfl, by simp [Instr.leaving, hst]⟩⟩
      rw [List.mem_singleton.mp hj]
      simp [Instr.failing, hst]
  | storeErrmsg errmsg =>
      exact ⟨_, _, rfl, by simp, ⟨id, rfl, rfl, rfl, fun f hf => hf, rfl⟩, rfl,
        by simp [Instr.leaving]⟩
  | _ => simp [Instr.failing] at hi

/-- What the resolution does leaves the tracking on, and nothing is observed. -/
theorem exec_resolving (hi : i.resolving = true) : ∃ c' pushed, c.exec i = .next c' pushed
    ∧ (∀ j ∈ pushed, j.resolving = true)
    ∧ c'.trackingBlobFileWriters = c.trackingBlobFileWriters
    ∧ c'.observations = c.observations := by
  cases i with
  | updateSub n st =>
      refine ⟨_, _, rfl, fun j hj => ?_, rfl, rfl⟩
      rcases mem_updates hj with ⟨m, rfl⟩ | rfl
      · rfl
      · rfl
  | updateBase st =>
      refine ⟨_, _, rfl, fun j hj => ?_, rfl, rfl⟩
      rcases mem_updates hj with ⟨m, rfl⟩ | rfl
      · rfl
      · rfl
  | redirect st => exact ⟨_, _, rfl, by simp [Instr.resolving, Instr.updating], rfl, rfl⟩
  | storeSub n st => exact ⟨_, _, rfl, by simp, rfl, rfl⟩
  | store st => exact ⟨_, _, rfl, by simp, rfl, rfl⟩
  | makeBlobFileWriter path => exact ⟨_, _, rfl, by simp, rfl, rfl⟩
  | _ => simp [Instr.resolving, Instr.updating] at hi

end

/-! ## The server's thread -/

namespace RootContext

/-- The response is complete. -/
structure ResponseComplete (recordId : ℕ) (files : Blob → List Bytes) (c : RootContext) :
    Prop where
  record : c.cacheRecordId = recordId
  completed : ∀ f ∈ files c.result, f ∈ c.completed

/-- The blob files of the result will be completed by `on_value_complete`, or are. -/
def Pending (files : Blob → List Bytes) (c : RootContext) : Prop :=
  ∀ f ∈ files c.result, f ∈ c.blobFileWriters ∨ f ∈ c.completed

/-- How far `resolve_async` is: the code that it has left and the handler around it. -/
inductive Phase (recordId : ℕ) (files : Blob → List Bytes) (c : RootContext) :
    List Instr → List Instr → Prop
  | resolving {work handler : List Instr} {out : Outcome}
      (hwork : ∀ i ∈ work, i.resolving = true) (hhandler : ∀ i ∈ handler, i.failing = true)
      (hleaves : ∃ i ∈ handler, i.leaving = true) :
      Phase recordId files c (work ++ out.code recordId) handler
  | failing {code handler : List Instr} (hcode : ∀ i ∈ code, i.failing = true)
      (hleaves : c.status ≠ .finished ∨ ∃ i ∈ code, i.leaving = true) :
      Phase recordId files c code handler
  | checked {b : Blob} {handler : List Instr} :
      Phase recordId files c
        [.storeResult b, .updateBase .finished, .setCacheRecordId recordId, .onValueComplete]
        handler
  | stored {handler : List Instr} (h : c.Pending files) :
      Phase recordId files c
        [.updateBase .finished, .setCacheRecordId recordId, .onValueComplete] handler
  | finishing {below handler : List Instr} (h : c.Pending files)
      (hbelow : ∀ i ∈ below, i.subUpdate = true) :
      Phase recordId files c
        (below ++ [.store .finished, .setCacheRecordId recordId, .onValueComplete]) handler
  | finished {handler : List Instr} (h : c.Pending files) :
      Phase recordId files c [.setCacheRecordId recordId, .onValueComplete] handler
  | recorded {handler : List Instr} (h : c.Pending files) (hrecord : c.cacheRecordId = recordId) :
      Phase recordId files c [.onValueComplete] handler
  | completing {paths : List Bytes} {handler : List Instr} (hrecord : c.cacheRecordId = recordId)
      (h : ∀ f ∈ files c.result, f ∈ paths ∨ f ∈ c.completed) :
      Phase recordId files c (paths.map .onWriteCompleted ++ [.clearBlobFileWriters]) handler
  | done {handler : List Instr} (h : c.ResponseComplete recordId files) :
      Phase recordId files c [] handler

variable {recordId : ℕ} {files : Blob → List Bytes} {c c' : RootContext}
  {code handler : List Instr}

theorem ResponseComplete.others (h : c.ResponseComplete recordId files) (ho : c.Others c') :
    c'.ResponseComplete recordId files := by
  refine ⟨ho.recordId.trans h.record, ?_⟩
  rw [ho.result]
  exact fun f hf => ho.completed f (h.completed f hf)

theorem Pending.others (h : c.Pending files) (ho : c.Others c') : c'.Pending files := by
  rw [Pending]
  rw [ho.result, ho.writers]
  exact fun f hf => (h f hf).imp_right (ho.completed f)

/-- Other threads do not disturb the server. -/
theorem Phase.others (h : Phase recordId files c code handler) (ho : c.Others c') :
    Phase recordId files c' code handler := by
  cases h with
  | resolving hwork hhandler hleaves => exact .resolving hwork hhandler hleaves
  | failing hcode hleaves =>
      exact .failing hcode (hleaves.imp_left fun hne hfin => hne (ho.status hfin))
  | checked => exact .checked
  | stored h => exact .stored (h.others ho)
  | finishing h hbelow => exact .finishing (h.others ho) hbelow
  | finished h => exact .finished (h.others ho)
  | recorded h hrecord => exact .recorded (h.others ho) (ho.recordId.trans hrecord)
  | completing hrecord h =>
      refine .completing (ho.recordId.trans hrecord) ?_
      rw [ho.result]
      exact fun f hf => (h f hf).imp_right (ho.completed f)
  | done h => exact .done (h.others ho)

/-- When `resolve_async` has returned, FINISHED means that the response is complete. -/
theorem Phase.complete (h : Phase recordId files c code handler) (hcode : code = [])
    (hfin : c.status = .finished) : c.ResponseComplete recordId files := by
  cases h with
  | resolving hwork hhandler hleaves =>
      rename_i out
      cases out <;> simp [Outcome.code, Call.code] at hcode
  | failing _ hleaves =>
      rcases hleaves with hne | ⟨i, hi, -⟩
      · exact absurd hfin hne
      · simp [hcode] at hi
  | done h => exact h
  | _ => simp at hcode

/-- One step of code that starts with an access that does not throw. -/
theorem stepThread_next {t t' : Thread Unit Instr} {i : Instr} {rest pushed : List Instr}
    {c₁ : RootContext} (hstep : stepThread exec c t = some (c', t')) (hcode : t.code = i :: rest)
    (hexec : c.exec i = .next c₁ pushed) : c' = c₁ ∧ t' = { t with code := pushed ++ rest } := by
  obtain ⟨i', rest', hcode', hcases⟩ := stepThread_cases hstep
  obtain ⟨rfl, rfl⟩ := List.cons.inj (hcode.symm.trans hcode')
  rcases hcases with ⟨pushed', hexec', rfl⟩ | ⟨hthrows, -⟩
  · rw [hexec] at hexec'
    obtain ⟨rfl, rfl⟩ := Effect.next.inj hexec'
    exact ⟨rfl, rfl⟩
  · simp [hexec] at hthrows

section
variable {t t' : Thread Unit Instr}

/-- A step of an end that fails. -/
theorem Phase.step_failing (hcode : ∀ i ∈ t.code, i.failing = true)
    (hleaves : c.status ≠ .finished ∨ ∃ i ∈ t.code, i.leaving = true)
    (hstep : stepThread exec c t = some (c', t')) :
    Phase recordId files c' t'.code t'.handler
      ∧ c'.trackingBlobFileWriters = c.trackingBlobFileWriters
      ∧ c'.observations = c.observations := by
  obtain ⟨i, rest, hi, -⟩ := stepThread_cases hstep
  rw [hi] at hcode hleaves
  obtain ⟨c₁, pushed, hexec, hpushed, ho, hobs, hleaving⟩ :=
    exec_failing (c := c) (hcode i List.mem_cons_self)
  obtain ⟨rfl, rfl⟩ := stepThread_next hstep hi hexec
  refine ⟨.failing (fun j hj => ?_) ?_, ho.tracking, hobs⟩
  · rcases List.mem_append.mp hj with hj | hj
    · exact hpushed j hj
    · exact hcode j (List.mem_cons_of_mem i hj)
  · rcases hleaves with hne | ⟨j, hj, hl⟩
    · exact .inl fun hfin => hne (ho.status hfin)
    · rcases List.mem_cons.mp hj with rfl | hj
      · rcases hleaving hl with hne | ⟨k, hk, hl⟩
        · exact .inl hne
        · exact .inr ⟨k, List.mem_append_left _ hk, hl⟩
      · exact .inr ⟨j, List.mem_append_right _ hj, hl⟩

/-- A step of the resolution, or the first one after it. -/
theorem Phase.step_resolving {work : List Instr} {out : Outcome}
    (hwork : ∀ i ∈ work, i.resolving = true) (hhandler : ∀ i ∈ t.handler, i.failing = true)
    (hleaves : ∃ i ∈ t.handler, i.leaving = true) (hcode : t.code = work ++ out.code recordId)
    (hstep : stepThread exec c t = some (c', t')) :
    Phase recordId files c' t'.code t'.handler
      ∧ c'.trackingBlobFileWriters = c.trackingBlobFileWriters
      ∧ c'.observations = c.observations := by
  cases work with
  | cons i rest =>
      rw [List.cons_append] at hcode
      obtain ⟨c₁, pushed, hexec, hpushed, htracking, hobs⟩ :=
        exec_resolving (c := c) (hwork i List.mem_cons_self)
      obtain ⟨rfl, rfl⟩ := stepThread_next hstep hcode hexec
      refine ⟨?_, htracking, hobs⟩
      rw [← List.append_assoc]
      refine .resolving (fun j hj => ?_) hhandler hleaves
      rcases List.mem_append.mp hj with hj | hj
      · exact hpushed j hj
      · exact hwork j (List.mem_cons_of_mem i hj)
  | nil =>
      rw [List.nil_append] at hcode
      cases out with
      | cancelled =>
          refine step_failing ?_ (.inr ?_) hstep
          · simp [hcode, Outcome.code, Call.code, Instr.failing]
          · simp [hcode, Outcome.code, Call.code, Instr.leaving]
      | error errmsg =>
          refine step_failing ?_ (.inr ?_) hstep
          · simp [hcode, Outcome.code, Call.code, Instr.failing]
          · simp [hcode, Outcome.code, Call.code, Instr.leaving]
      | value b =>
          obtain ⟨i, rest, hi, hcases⟩ := stepThread_cases hstep
          obtain ⟨rfl, rfl⟩ := List.cons.inj (hi.symm.trans hcode)
          rcases hcases with ⟨pushed, hexec, rfl⟩ | ⟨hexec, rfl⟩
          · simp only [exec] at hexec
            split at hexec
            · obtain ⟨rfl, rfl⟩ := Effect.next.inj hexec
              exact ⟨.checked, rfl, rfl⟩
            · cases hexec
          · simp only [exec] at hexec
            split at hexec
            · cases hexec
            · obtain rfl := Effect.throws.inj hexec
              exact ⟨.failing hhandler (.inr hleaves), rfl, rfl⟩

/-- One step of `resolve_async`. -/
theorem Phase.step (h : Phase recordId files c t.code t.handler)
    (htracking : c.trackingBlobFileWriters = true)
    (hfiles : ∀ b, t.code.head? = some (.storeResult b) →
      ∀ f ∈ files b, f ∈ c.blobFileWriters ∨ f ∈ c.completed)
    (hstep : stepThread exec c t = some (c', t')) :
    Phase recordId files c' t'.code t'.handler
      ∧ c'.trackingBlobFileWriters = c.trackingBlobFileWriters
      ∧ c'.observations = c.observations := by
  generalize hcode : t.code = code at h
  generalize hhandler : t.handler = handler at h
  cases h with
  | resolving hwork hfailing hleaves =>
      subst hhandler
      exact step_resolving hwork hfailing hleaves hcode hstep
  | failing hfailing hleaves =>
      subst hcode
      exact step_failing hfailing hleaves hstep
  | checked =>
      obtain ⟨rfl, rfl⟩ := stepThread_next hstep hcode rfl
      exact ⟨.stored (hfiles _ (by rw [hcode]; rfl)), rfl, rfl⟩
  | stored h =>
      obtain ⟨rfl, rfl⟩ := stepThread_next hstep hcode rfl
      refine ⟨?_, rfl, rfl⟩
      rw [List.append_assoc]
      refine .finishing h fun i hi => ?_
      rcases mem_updates (List.mem_append_left [.store .finished] hi) with ⟨n, rfl⟩ | rfl
      · rfl
      · split at hi <;> simp at hi
  | finishing h hbelow =>
      rename_i below
      cases below with
      | nil =>
          obtain ⟨rfl, rfl⟩ := stepThread_next hstep hcode rfl
          exact ⟨.finished h, rfl, rfl⟩
      | cons i rest =>
          rw [List.cons_append] at hcode
          obtain ⟨c₁, pushed, hexec, hpushed, -, ho, hobs⟩ :=
            exec_subUpdate (c := c) (hbelow i List.mem_cons_self)
          obtain ⟨rfl, rfl⟩ := stepThread_next hstep hcode hexec
          refine ⟨?_, ho.tracking, hobs⟩
          rw [← List.append_assoc]
          refine .finishing (h.others ho) fun j hj => ?_
          rcases List.mem_append.mp hj with hj | hj
          · exact hpushed j hj
          · exact hbelow j (List.mem_cons_of_mem i hj)
  | finished h =>
      obtain ⟨rfl, rfl⟩ := stepThread_next hstep hcode rfl
      exact ⟨.recorded h rfl, rfl, rfl⟩
  | recorded h hrecord =>
      obtain ⟨rfl, rfl⟩ := stepThread_next hstep hcode (by rw [exec, if_pos htracking])
      refine ⟨?_, rfl, rfl⟩
      rw [List.append_nil]
      exact .completing hrecord h
  | completing hrecord h =>
      rename_i paths
      cases paths with
      | nil =>
          obtain ⟨rfl, rfl⟩ := stepThread_next hstep hcode rfl
          exact ⟨.done ⟨hrecord, fun f hf => (h f hf).resolve_left (by simp)⟩, rfl, rfl⟩
      | cons path paths =>
          obtain ⟨rfl, rfl⟩ := stepThread_next hstep hcode rfl
          refine ⟨.completing hrecord fun f hf => ?_, rfl, rfl⟩
          rcases h f hf with hmem | hmem
          · rcases List.mem_cons.mp hmem with rfl | hmem
            · exact .inr List.mem_cons_self
            · exact .inl hmem
          · exact .inr (List.mem_cons_of_mem path hmem)
  | done h =>
      obtain ⟨i, rest, hi, -⟩ := stepThread_cases hstep
      simp [hcode] at hi

end
end RootContext

/-! ## All parties -/

/-- The instructions of `get_async_response`. -/
def Instr.answering : Instr → Bool
  | .getCacheRecordId | .checkGetResult | .readResult => true
  | _ => false

theorem Service.answering (service : Service) :
    ∀ i ∈ service.getAsyncResponse, i.answering = true := by
  cases service <;> simp [getAsyncResponse, Instr.answering]

section
variable {sub : Submission} {files : Blob → List Bytes} {c c' : RootContext} {i : Instr}

/-- The client accepts the record id of a complete response. -/
theorem complete_recordId (h : c.ResponseComplete sub.recordId files) :
    (Observation.recordId c.cacheRecordId).Complete sub files := by
  rw [h.record]
  simp only [Observation.Complete, setLockPtrRecord]
  by_cases hneed : sub.needRecordLock = true
  · rw [if_pos hneed, if_neg (sub.recordId_set hneed), if_pos hneed]
  · rw [if_neg hneed, if_neg hneed]

/-- What a client looks at changes nothing but the observations. -/
theorem RootContext.Others.observe (c : RootContext) (o : Observation) : c.Others (c.observe o) :=
  ⟨id, rfl, rfl, rfl, fun _ hf => hf, rfl⟩

/-- The answer to `get_async_response`, when the response is complete. -/
theorem exec_answering (hi : i.answering = true) (hc : c.ResponseComplete sub.recordId files)
    (hobs : ∀ o ∈ c.observations, o.Complete sub files) :
    ∃ c', (c.exec i = .next c' [] ∨ c.exec i = .throws c') ∧ c.Others c'
      ∧ ∀ o ∈ c'.observations, o.Complete sub files := by
  cases i with
  | getCacheRecordId =>
      exact ⟨_, .inl rfl, .observe c _, RootContext.forall_observe hobs (complete_recordId hc)⟩
  | readResult =>
      exact ⟨_, .inl rfl, .observe c _, RootContext.forall_observe hobs hc.completed⟩
  | checkGetResult =>
      by_cases hready : c.usingResult = true ∧ c.status = .finished
      · exact ⟨c, .inl (by rw [RootContext.exec, if_pos hready]),
          ⟨id, rfl, rfl, rfl, fun _ hf => hf, rfl⟩, hobs⟩
      · exact ⟨_, .inr (by rw [RootContext.exec, if_neg hready]), .observe c .refused,
          RootContext.forall_observe hobs trivial⟩
  | _ => simp [Instr.answering] at hi

/-- A poll that is answered. -/
theorem exec_poll_next {response pushed : List Instr}
    (h : c.exec (.poll response) = .next c' pushed) :
    c' = c.observe (.status c.status c.stored)
      ∧ (pushed = [.poll response] ∨ c.status = .finished ∧ pushed = response) := by
  simp only [RootContext.exec] at h
  cases hstatus : c.status <;> simp_all

theorem exec_poll_throws {response : List Instr} (h : c.exec (.poll response) = .throws c') :
    c' = c.observe (.status c.status c.stored) := by
  simp only [RootContext.exec] at h
  cases hstatus : c.status <;> simp_all

end

namespace Completion

/-- A client that has seen FINISHED finds the response complete. -/
def Served (sub : Submission) (files : Blob → List Bytes) (s : Completion)
    (t : Thread Unit Instr) : Prop :=
  t.handler = [] ∧ (t.code = [.poll sub.service.getAsyncResponse]
    ∨ (∀ i ∈ t.code, i.answering = true)
      ∧ (t.code ≠ [] → s.server.code = [] ∧ s.context.ResponseComplete sub.recordId files))

structure Consistent (sub : Submission) (files : Blob → List Bytes) (s : Completion) : Prop where
  tracking : s.context.trackingBlobFileWriters = true
  server : s.context.Phase sub.recordId files s.server.code s.server.handler
  clients : ∀ t ∈ s.clients, s.Served sub files t
  cancellers : ∀ t ∈ s.cancellers, ∀ i ∈ t.code, i.failing = true
  complete : ∀ o ∈ s.context.observations, o.Complete sub files

variable {sub : Submission} {files : Blob → List Bytes} {s : Completion}

theorem Served.others {t : Thread Unit Instr} {c' : RootContext} (h : s.Served sub files t)
    (ho : s.context.Others c') : Served sub files { s with context := c' } t :=
  ⟨h.1, h.2.imp_right fun hanswer => ⟨hanswer.1, fun hne =>
    ⟨(hanswer.2 hne).1, (hanswer.2 hne).2.others ho⟩⟩⟩

/-- A step of another thread, which has made good observations, and then the clients and
the cancellers that are left. -/
theorem Consistent.others {c' : RootContext} (h : s.Consistent sub files)
    (ho : s.context.Others c') (hobs : ∀ o ∈ c'.observations, o.Complete sub files) :
    Consistent sub files { s with context := c' } :=
  ⟨ho.tracking.trans h.tracking, h.server.others ho, fun t ht => (h.clients t ht).others ho,
    h.cancellers, hobs⟩

/-- A client's step, given what it leads to. -/
theorem Consistent.setClient {n : ℕ} {c' : RootContext} {t' : Thread Unit Instr}
    (h : s.Consistent sub files) (ho : s.context.Others c')
    (hobs : ∀ o ∈ c'.observations, o.Complete sub files)
    (ht : Served sub files { s with context := c' } t') :
    Consistent sub files { s with context := c', clients := s.clients.set n t' } := by
  have hrest := h.others ho hobs
  exact ⟨hrest.tracking, hrest.server, forall_mem_set hrest.clients (fun u hu => hu) ht,
    hrest.cancellers, hrest.complete⟩

theorem Consistent.client {n : ℕ} {r : RootContext × List (Thread Unit Instr)}
    (h : s.Consistent sub files) (hok : s.Orderly files (.client n))
    (hstep : stepPool RootContext.exec s.context s.clients n = some r) :
    Consistent sub files { s with context := r.1, clients := r.2 } := by
  obtain ⟨c', ts'⟩ := r
  obtain ⟨t, t', hn, hthread, rfl⟩ := stepPool_cases hstep
  obtain ⟨i, rest, hcode, hcases⟩ := stepThread_cases hthread
  obtain ⟨hhandler, hserved⟩ := h.clients t (List.mem_of_getElem? hn)
  rcases hserved with hpoll | ⟨hanswering, hready⟩
  · obtain ⟨rfl, rfl⟩ := List.cons.inj (hcode.symm.trans hpoll)
    have ho := RootContext.Others.observe s.context (.status s.context.status s.context.stored)
    have hobs :=
      RootContext.forall_observe (o := .status s.context.status s.context.stored) h.complete trivial
    rcases hcases with ⟨pushed, hexec, rfl⟩ | ⟨hexec, rfl⟩
    · obtain ⟨rfl, hpushed⟩ := exec_poll_next hexec
      refine h.setClient ho hobs ⟨hhandler, ?_⟩
      simp only [List.append_nil]
      rcases hpushed with rfl | ⟨hfin, rfl⟩
      · exact .inl rfl
      · -- the status is FINISHED, so the server has returned
        have hserver : s.server.code = [] := hok t hn ⟨_, by rw [hcode]; rfl, rfl⟩ hfin
        exact .inr ⟨sub.service.answering,
          fun _ => ⟨hserver, (h.server.complete hserver hfin).others ho⟩⟩
    · obtain rfl := exec_poll_throws hexec
      exact h.setClient ho hobs ⟨rfl, .inr ⟨by simp [hhandler], by simp [hhandler]⟩⟩
  · have hcomplete := hready (by simp [hcode])
    rw [hcode] at hanswering
    obtain ⟨c₁, hexec₁, ho, hobs⟩ :=
      exec_answering (hanswering i List.mem_cons_self) hcomplete.2 h.complete
    rcases hcases with ⟨pushed, hexec, rfl⟩ | ⟨hexec, rfl⟩
    · obtain ⟨rfl, rfl⟩ : c' = c₁ ∧ pushed = [] := by simpa [hexec] using hexec₁
      refine h.setClient ho hobs ⟨hhandler, .inr ⟨fun j hj => ?_, fun _ => ?_⟩⟩
      · exact hanswering j (List.mem_cons_of_mem i hj)
      · exact ⟨hcomplete.1, hcomplete.2.others ho⟩
    · obtain rfl : c' = c₁ := by simpa [hexec] using hexec₁
      exact h.setClient ho hobs ⟨rfl, .inr ⟨by simp [hhandler], by simp [hhandler]⟩⟩

theorem Consistent.canceller {n : ℕ} {r : RootContext × List (Thread Unit Instr)}
    (h : s.Consistent sub files)
    (hstep : stepPool RootContext.exec s.context s.cancellers n = some r) :
    Consistent sub files { s with context := r.1, cancellers := r.2 } := by
  obtain ⟨c', ts'⟩ := r
  obtain ⟨t, t', hn, hthread, rfl⟩ := stepPool_cases hstep
  obtain ⟨i, rest, hcode, -⟩ := stepThread_cases hthread
  have hfailing := h.cancellers t (List.mem_of_getElem? hn)
  rw [hcode] at hfailing
  obtain ⟨c₁, pushed, hexec, hpushed, ho, hobs, -⟩ :=
    exec_failing (c := s.context) (hfailing i List.mem_cons_self)
  obtain ⟨rfl, rfl⟩ := RootContext.stepThread_next hthread hcode hexec
  have hrest := h.others ho (by rw [hobs]; exact h.complete)
  refine ⟨hrest.tracking, hrest.server, hrest.clients,
    forall_mem_set hrest.cancellers (fun u hu => hu) fun j hj => ?_, hrest.complete⟩
  rcases List.mem_append.mp hj with hj | hj
  · exact hpushed j hj
  · exact hfailing j (List.mem_cons_of_mem i hj)

theorem Consistent.step {s' : Completion} {a : Action} (h : s.Consistent sub files)
    (hok : s.Orderly files a) (hstep : s.step sub a = some s') : s'.Consistent sub files := by
  cases a with
  | server =>
      obtain ⟨⟨c', t'⟩, hthread, rfl⟩ := Option.map_eq_some_iff.mp hstep
      obtain ⟨hphase, htracking, hobs⟩ := h.server.step h.tracking
        (fun b hb => hok (.storeResult b) hb b rfl) hthread
      refine ⟨htracking.trans h.tracking, hphase, fun t ht => ⟨(h.clients t ht).1, ?_⟩,
        h.cancellers, by rw [hobs]; exact h.complete⟩
      -- a client that gets its response has seen that the server has returned
      refine (h.clients t ht).2.imp_right fun hanswer => ⟨hanswer.1, fun hne => ?_⟩
      obtain ⟨i, rest, hcode, -⟩ := stepThread_cases hthread
      simp [(hanswer.2 hne).1] at hcode
  | poll =>
      obtain rfl := Option.some.inj hstep
      refine ⟨h.tracking, h.server, fun t ht => ?_, h.cancellers, h.complete⟩
      rcases List.mem_append.mp ht with ht | ht
      · exact h.clients t ht
      · obtain rfl := List.mem_singleton.mp ht
        exact ⟨rfl, .inl rfl⟩
  | client n =>
      obtain ⟨r, hpool, rfl⟩ := Option.map_eq_some_iff.mp hstep
      exact h.client hok hpool
  | cancel =>
      obtain rfl := Option.some.inj hstep
      refine ⟨h.tracking, h.server, h.clients, fun t ht => ?_, h.complete⟩
      rcases List.mem_append.mp ht with ht | ht
      · exact h.cancellers t ht
      · obtain rfl := List.mem_singleton.mp ht
        simp [Call.code, Instr.failing]
  | canceller n =>
      obtain ⟨r, hpool, rfl⟩ := Option.map_eq_some_iff.mp hstep
      exact h.canceller hpool
  | completed path =>
      obtain rfl := Option.some.inj hstep
      exact h.others ⟨id, rfl, rfl, rfl, fun f hf => List.mem_cons_of_mem path hf, rfl⟩ h.complete

/-! ## Every run -/

/-- In every orderly run, the response that a client gets carries the record id of the lock
that was requested, and the blob files of the result are completed. -/
theorem complete_of_orderly (sub : Submission) (files : Blob → List Bytes) {s : Completion}
    (h : Transition.Reachable (step sub) (Orderly files) (start sub) s) :
    ∀ o ∈ s.context.observations, o.Complete sub files := by
  refine (h.invariant (I := Consistent sub files) (fun s hs => ?_)
    (fun s s' a hI hok hstep => hI.step hok hstep)).complete
  obtain ⟨-, htracking, hobs, hclients, hcancellers, work, out, errmsg, hwork, hserver⟩ := hs
  refine ⟨htracking, ?_, by simp [hclients], by simp [hcancellers], by simp [hobs]⟩
  rw [hserver]
  refine .resolving hwork ?_ ?_
  · simp [Call.code, Instr.failing]
  · simp [Call.code, Instr.leaving]

/-- A request with a lock, resolved by the RPC server. -/
def locked : Submission := ⟨.rpclib, true, 1, by simp⟩

/-- The resolution makes a blob file, to which its value refers. -/
def locked.start : Completion :=
  { context := { usingResult := true, trackingBlobFileWriters := true }
    server := { tag := ()
                code := [.makeBlobFileWriter [1], .updateBase .finished, .redirect .finished]
                  ++ (Outcome.value (.ofBytes [7])).code 1
                handler := (Call.updateStatusError "").code } }

def locked.blobFiles (b : Blob) : List Bytes := if b.data = [7] then [[1]] else []

theorem locked.start_mem : locked.start ∈ Completion.start locked :=
  ⟨rfl, rfl, rfl, rfl, rfl, [.makeBlobFileWriter [1], .updateBase .finished, .redirect .finished],
    .value (.ofBytes [7]), "", by simp [Instr.resolving, Instr.updating], rfl⟩

/-- The client polls twice, before and after the server's work. -/
def locked.inTurn : List Action :=
  [.poll, .client 0] ++ List.replicate 14 .server ++ List.replicate 4 (.client 0)

theorem complete_inTurn : ∃ s, Transition.run (step locked) locked.start locked.inTurn = some s
    ∧ s.context.observations = [.status .created none, .status .finished (some (.ofBytes [7])),
        .recordId 1, .result (.ofBytes [7]) (some (.ofBytes [7])) [[1]]]
    ∧ ∀ o ∈ s.context.observations, o.Complete locked locked.blobFiles := by
  obtain ⟨s, hrun⟩ : ∃ s, Transition.run (step locked) locked.start locked.inTurn = some s :=
    Option.isSome_iff_exists.mp (by decide)
  have hobs : (Transition.run (step locked) locked.start locked.inTurn).map
        (·.context.observations)
      = some [.status .created none, .status .finished (some (.ofBytes [7])),
        .recordId 1, .result (.ofBytes [7]) (some (.ofBytes [7])) [[1]]] := by
    decide
  have hmeet : Transition.StepsMeet (step locked) (Orderly locked.blobFiles) locked.start
      locked.inTurn := by
    decide
  rw [hrun] at hobs
  exact ⟨s, hrun, Option.some.inj hobs, complete_of_orderly locked locked.blobFiles
    (.run_of_stepsMeet (.start locked.start_mem) hmeet hrun)⟩

/-- The client polls right after `set_result`. -/
def locked.tooEarly : List Action :=
  .poll :: List.replicate 10 .server ++ List.replicate 4 (.client 0)

/-- The client gets a response without a record id, and reports that. -/
theorem not_complete_tooEarly :
    ¬ ∀ (sub : Submission) (files : Blob → List Bytes) (s : Completion),
      Transition.Reachable (step sub) (fun _ _ => True) (start sub) s →
        ∀ o ∈ s.context.observations, o.Complete sub files := by
  intro h
  obtain ⟨s, hrun⟩ : ∃ s, Transition.run (step locked) locked.start locked.tooEarly = some s :=
    Option.isSome_iff_exists.mp (by decide)
  have hobs : (Transition.run (step locked) locked.start locked.tooEarly).map
        (·.context.observations)
      = some [.status .finished (some (.ofBytes [7])), .recordId 0,
        .result (.ofBytes [7]) (some (.ofBytes [7])) []] := by
    decide
  have hreach := Transition.Reachable.run (.start locked.start_mem) hrun
  rw [hrun] at hobs
  have hall := h locked locked.blobFiles s hreach
  rw [show s.context.observations = _ from Option.some.inj hobs] at hall
  have hrecord := hall (.recordId 0) (by simp)
  simp [Observation.Complete, setLockPtrRecord, locked] at hrecord

end Completion
end Cradle.Remote
