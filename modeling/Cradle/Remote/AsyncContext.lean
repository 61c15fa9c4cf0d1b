import Cradle.Core.Bytes
import Cradle.Lib.Threads
import Mathlib.Data.Nat.Notation

/-!
# Root contexts of asynchronous resolutions

A `root_local_async_context_base` is shared by the thread that resolves the request, the
handlers that answer the client's polls, and whoever cancels.  The status is atomic, so
the calls are broken up into the single accesses to the members, and threads are run one
access at a time.  `errmsg_` and `result_` are not protected; each access to them is
taken to be one step too.

`update_status` on a context first updates the contexts below it, when this context gets
almost finished.  The contexts below the root are referred to by their ids.

Every look at the context is kept in `observations`, together with what was in it at that
moment; `stored` is the blob that `set_result` has stored, and `completed` are the blob
files that have been flushed to disk.  The program has neither of them.
-/

namespace Cradle.Remote

open Threads

/-- `async_status`. -/
inductive AsyncStatus
  | created | subsRunning | selfRunning | cancelled | awaitingResult | finished | failed
  deriving DecidableEq, Repr

/-- `almost_finished` in `update_status`. -/
def AsyncStatus.almostFinished (st : AsyncStatus) : Bool := st = .awaitingResult ∨ st = .finished

/-- A context below the root. -/
structure SubContext where
  status : AsyncStatus := .created
  subs : List ℕ := []

/-- What a client sees. -/
inductive Observation
  /-- The status, when `set_result` has stored the given blob. -/
  | status (st : AsyncStatus) (stored : Option Blob)
  /-- The result, when `set_result` has stored the given blob and these blob files are
  completed. -/
  | result (b : Blob) (stored : Option Blob) (completed : List Bytes)
  | recordId (id : ℕ)
  /-- The precondition of `get_result` does not hold. -/
  | refused
  deriving DecidableEq

/-- A default-constructed blob. -/
def nullBlob : Blob := { data := [], nullData := true }

/-- `root_local_async_context_base` with its tree.  A `remote_cache_record_id` is its
value, where 0 is unset. -/
structure RootContext where
  status : AsyncStatus := .created
  subs : List ℕ := []
  context : ℕ → SubContext := fun _ => {}
  usingResult : Bool := false
  result : Blob := nullBlob
  errmsg : String := ""
  cacheRecordId : ℕ := 0
  trackingBlobFileWriters : Bool := false
  blobFileWriters : List Bytes := []
  stored : Option Blob := none
  completed : List Bytes := []
  observations : List Observation := []

/-- The single accesses. -/
inductive Instr
  /-- `local_async_context_base::update_status` on a context below the root. -/
  | updateSub (id : ℕ) (st : AsyncStatus)
  | storeSub (id : ℕ) (st : AsyncStatus)
  /-- `local_async_context_base::update_status` on the root. -/
  | updateBase (st : AsyncStatus)
  | store (st : AsyncStatus)
  /-- The second half of `root_local_async_context_base::update_status`. -/
  | redirect (st : AsyncStatus)
  | storeErrmsg (errmsg : String)
  /-- The precondition check of `set_result`. -/
  | checkSetResult
  | storeResult (b : Blob)
  | setCacheRecordId (id : ℕ)
  /-- `make_data_owner` for shared memory. -/
  | makeBlobFileWriter (path : Bytes)
  | onValueComplete
  | onWriteCompleted (path : Bytes)
  | clearBlobFileWriters
  /-- `get_status`. -/
  | getStatus
  /-- The precondition check of `get_result`. -/
  | checkGetResult
  | readResult
  | getCacheRecordId
  /-- One round of the client's wait for the status FINISHED, and then the given code. -/
  | poll (response : List Instr)

namespace RootContext

/-- Note what is seen. -/
def observe (c : RootContext) (o : Observation) : RootContext :=
  { c with observations := c.observations ++ [o] }

/-- The effect of one access.  `update_status` looks at the status once, before it updates
the contexts below. -/
def exec (c : RootContext) : Instr → Effect RootContext Instr
  | .updateSub id st =>
      let below := if ¬ (c.context id).status.almostFinished ∧ st.almostFinished
        then (c.context id).subs.map (.updateSub · .finished) else []
      .next c (below ++ [.storeSub id st])
  | .storeSub id st =>
      .next { c with
        context := Function.update c.context id { c.context id with status := st } } []
  | .updateBase st =>
      let below := if ¬ c.status.almostFinished ∧ st.almostFinished
        then c.subs.map (.updateSub · .finished) else []
      .next c (below ++ [.store st])
  | .store st => .next { c with status := st } []
  | .redirect st =>
      .next c [.updateBase (if c.usingResult ∧ st = .finished then .awaitingResult else st)]
  | .storeErrmsg errmsg => .next { c with errmsg } []
  | .checkSetResult =>
      if c.usingResult ∧ c.status = .awaitingResult then .next c [] else .throws c
  | .storeResult b => .next { c with result := b, stored := some b } []
  | .setCacheRecordId id => .next { c with cacheRecordId := id } []
  | .makeBlobFileWriter path =>
      .next { c with blobFileWriters :=
        if c.trackingBlobFileWriters then c.blobFileWriters ++ [path] else c.blobFileWriters } []
  | .onValueComplete =>
      if c.trackingBlobFileWriters
      then .next c (c.blobFileWriters.map .onWriteCompleted ++ [.clearBlobFileWriters])
      else .throws c
  | .onWriteCompleted path => .next { c with completed := path :: c.completed } []
  | .clearBlobFileWriters => .next { c with blobFileWriters := [] } []
  | .getStatus => .next (c.observe (.status c.status c.stored)) []
  | .checkGetResult =>
      if c.usingResult ∧ c.status = .finished then .next c [] else .throws (c.observe .refused)
  | .readResult => .next (c.observe (.result c.result c.stored c.completed)) []
  | .getCacheRecordId => .next (c.observe (.recordId c.cacheRecordId)) []
  | .poll response =>
      let c' := c.observe (.status c.status c.stored)
      match c.status with
      | .finished => .next c' response
      | .cancelled | .failed => .throws c'
      | _ => .next c' [.poll response]

/-- What holds of every observation still does after one more. -/
theorem forall_observe {P : Observation → Prop} {os : List Observation} {o : Observation}
    (h : ∀ o ∈ os, P o) (ho : P o) : ∀ o' ∈ os ++ [o], P o' :=
  List.forall_mem_append.mpr ⟨h, List.forall_mem_singleton.mpr ho⟩

end RootContext

/-- What `update_status` does: it may update contexts below, and then stores the status. -/
theorem mem_updates {p : Prop} [Decidable p] {ids : List ℕ} {last i : Instr}
    (h : i ∈ (if p then ids.map (Instr.updateSub · .finished) else []) ++ [last]) :
    (∃ id, i = .updateSub id .finished) ∨ i = last := by
  rcases List.mem_append.mp h with h | h
  · split at h
    · obtain ⟨id, -, rfl⟩ := List.mem_map.mp h
      exact .inl ⟨id, rfl⟩
    · simp at h
  · exact .inr (List.mem_singleton.mp h)

/-! ## Calls -/

/-- The calls on a root context. -/
inductive Call
  | updateStatus (st : AsyncStatus)
  | updateStatusError (errmsg : String)
  | setResult (b : Blob)
  | getStatus
  | getResult
  deriving DecidableEq

namespace Call

def code : Call → List Instr
  | .updateStatus st => [.updateBase st, .redirect st]
  | .updateStatusError errmsg => [.store .failed, .storeErrmsg errmsg]
  | .setResult b => [.checkSetResult, .storeResult b, .updateBase .finished]
  | .getStatus => [.getStatus]
  | .getResult => [.checkGetResult, .readResult]

end Call
end Cradle.Remote
