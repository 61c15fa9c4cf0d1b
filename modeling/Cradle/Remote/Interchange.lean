import Cradle.Lib.Transition
import Cradle.Remote.AsyncContext
import Mathlib.Logic.Equiv.Defs

/-!
# The loopback service and the RPC service

A client talks to a remote through `remote_proxy`.  Tests put the loopback service behind it,
which runs in the same process; in production it is an rpclib client, whose calls are
answered by the handlers of a server.  Both keep the contexts of the submitted requests in
an `async_db`.  The handlers put their results in types that can travel, and the client
takes them out again.

The two services allocate their own ids, so that they are compared up to a renaming.
-/

namespace Cradle.Interchange

open Remote (AsyncStatus)

/-! ## Contexts -/

/-- `request_essentials`. -/
structure RequestEssentials where
  uuidStr : String
  title : Option String := none
  deriving DecidableEq, Repr

/-- What a `root_local_async_context_base` has in addition. -/
structure RootInfo where
  usingResult : Bool
  result : Blob
  cacheRecordId : ℕ
  deriving DecidableEq

/-- A `local_async_context_base` apart from its sub-contexts; `treeCtx` identifies the tree
context that it shares with the others of its tree. -/
structure ContextInfo where
  id : ℕ
  isReq : Bool
  treeCtx : ℕ
  status : AsyncStatus := .created
  errmsg : String := ""
  essentials : Option RequestEssentials := none
  root : Option RootInfo := none
  deriving DecidableEq

inductive Context
  | node (info : ContextInfo) (subs : List Context)

namespace Context

def info : Context → ContextInfo
  | node i _ => i

def subs : Context → List Context
  | node _ cs => cs

end Context

/-- The exceptions, with the ids that their texts name. -/
inductive Failure
  /-- `bad_async_id_error`: unknown async_id. -/
  | unknownAsyncId (id : ℕ)
  /-- `bad_async_id_error`: async_id is no root. -/
  | noRoot (id : ℕ)
  /-- `std::logic_error`: no essentials for id. -/
  | noEssentials (id : ℕ)
  /-- `std::logic_error`: the precondition of `get_result` is violated. -/
  | precondition (id : ℕ) (usingResult : Bool) (status : AsyncStatus)
  /-- `remote_error`: what the client makes of an error response. -/
  | remoteError (e : Failure)
  deriving DecidableEq

namespace Context

/-- `get_essentials`. -/
def getEssentials (c : Context) : Except Failure RequestEssentials :=
  match c.info.essentials with
  | none => .error (.noEssentials c.info.id)
  | some e => .ok e

/-- `get_result` of a root context. -/
def getResult (c : Context) (r : RootInfo) : Except Failure Blob :=
  if r.usingResult ∧ c.info.status = .finished then .ok r.result
  else .error (.precondition c.info.id r.usingResult c.info.status)

end Context

/-- A service's contexts: the database, and the trees whose cancellation was requested. -/
structure Host where
  entries : ℕ → Option Context
  cancellationRequested : ℕ → Bool

namespace Host

/-- `async_db::find`. -/
def find (s : Host) (aid : ℕ) : Except Failure Context :=
  match s.entries aid with
  | none => .error (.unknownAsyncId aid)
  | some c => .ok c

/-- `async_db::find_root`. -/
def findRoot (s : Host) (aid : ℕ) : Except Failure (Context × RootInfo) := do
  let c ← s.find aid
  match c.info.root with
  | none => .error (.noRoot aid)
  | some r => .ok (c, r)

/-- `request_cancellation` of a context asks its tree context. -/
def requestCancellation (s : Host) (c : Context) : Host :=
  { s with cancellationRequested := Function.update s.cancellationRequested c.info.treeCtx true }

end Host

mutual

/-- `async_db::remove_subtree`. -/
def removeSubtree (entries : ℕ → Option Context) : Context → ℕ → Option Context
  | .node i cs => Function.update (removeSubtrees entries cs) i.id none

/-- The loop over the sub-contexts. -/
def removeSubtrees (entries : ℕ → Option Context) : List Context → ℕ → Option Context
  | [] => entries
  | c :: cs => removeSubtrees (removeSubtree entries c) cs

end

/-- `async_db::remove_tree`. -/
def Host.removeTree (s : Host) (aid : ℕ) : Except Failure Host := do
  let c ← s.find aid
  return { s with entries := removeSubtree s.entries c }

/-- The child specifications that `get_sub_contexts` collects. -/
def subSpecs (c : Context) : List (ℕ × Bool) :=
  c.subs.map fun sub => (sub.info.id, sub.info.isReq)

/-! ## The loopback service -/

namespace LoopbackService

def getSubContexts (s : Host) (aid : ℕ) : Except Failure (List (ℕ × Bool)) := do
  let actx ← s.find aid
  return subSpecs actx

def getAsyncStatus (s : Host) (aid : ℕ) : Except Failure AsyncStatus := do
  let actx ← s.find aid
  return actx.info.status

def getAsyncErrorMessage (s : Host) (aid : ℕ) : Except Failure String := do
  let actx ← s.find aid
  return actx.info.errmsg

/-- The value and the id of the cache record. -/
def getAsyncResponse (s : Host) (rootAid : ℕ) : Except Failure (Blob × ℕ) := do
  let (actx, r) ← s.findRoot rootAid
  let result ← actx.getResult r
  return (result, r.cacheRecordId)

def getEssentials (s : Host) (aid : ℕ) : Except Failure RequestEssentials := do
  let (actx, _) ← s.findRoot aid
  actx.getEssentials

def requestCancellation (s : Host) (aid : ℕ) : Except Failure Host := do
  let actx ← s.find aid
  return s.requestCancellation actx

def finishAsync (s : Host) (rootAid : ℕ) : Except Failure Host :=
  s.removeTree rootAid

end LoopbackService

/-! ## The RPC server's handlers -/

namespace Handlers

/-- An `async_status` as `int`. -/
def ofStatus : AsyncStatus → ℤ
  | .created => 0
  | .subsRunning => 1
  | .selfRunning => 2
  | .cancelled => 3
  | .awaitingResult => 4
  | .finished => 5
  | .failed => 6

def handleGetSubContexts (s : Host) (aid : ℕ) : Except Failure (List (ℕ × Bool)) := do
  let actx ← s.find aid
  return subSpecs actx

def handleGetAsyncStatus (s : Host) (aid : ℕ) : Except Failure ℤ := do
  let actx ← s.find aid
  return ofStatus actx.info.status

def handleGetAsyncErrorMessage (s : Host) (aid : ℕ) : Except Failure String := do
  let actx ← s.find aid
  return actx.info.errmsg

/-- `rpclib_response`: the response id, which is 0, the id of the cache record, the value. -/
def handleGetAsyncResponse (s : Host) (rootAid : ℕ) : Except Failure (ℕ × ℕ × Blob) := do
  let (actx, r) ← s.findRoot rootAid
  let recordId := r.cacheRecordId
  let result ← actx.getResult r
  return (0, recordId, result)

/-- `rpclib_essentials`: the uuid, and the title or an empty string. -/
def handleGetEssentials (s : Host) (aid : ℕ) : Except Failure (String × String) := do
  let actx ← s.find aid
  let essentials ← actx.getEssentials
  return (essentials.uuidStr, essentials.title.getD "")

/-- The handlers without a result return an `int`. -/
def handleRequestCancellation (s : Host) (aid : ℕ) : Except Failure (ℤ × Host) := do
  let actx ← s.find aid
  return (0, s.requestCancellation actx)

def handleFinishAsync (s : Host) (rootAid : ℕ) : Except Failure (ℤ × Host) := do
  let s' ← s.removeTree rootAid
  return (0, s')

end Handlers

/-! ## The rpclib client -/

namespace RpclibClient

/-- `do_rpc_call`: the result of the handler arrives as it is, an exception arrives as a
`remote_error`. -/
def doRpcCall {α : Type} (handled : Except Failure α) : Except Failure α :=
  handled.mapError .remoteError

/-- An `async_status` from an `int`. -/
def toStatus : ℤ → AsyncStatus
  | 0 => .created
  | 1 => .subsRunning
  | 2 => .selfRunning
  | 3 => .cancelled
  | 4 => .awaitingResult
  | 5 => .finished
  | _ => .failed

def getSubContexts (s : Host) (aid : ℕ) : Except Failure (List (ℕ × Bool)) :=
  doRpcCall (Handlers.handleGetSubContexts s aid)

def getAsyncStatus (s : Host) (aid : ℕ) : Except Failure AsyncStatus := do
  let statusValue ← doRpcCall (Handlers.handleGetAsyncStatus s aid)
  return toStatus statusValue

def getAsyncErrorMessage (s : Host) (aid : ℕ) : Except Failure String :=
  doRpcCall (Handlers.handleGetAsyncErrorMessage s aid)

/-- `make_serialized_result` leaves out the observer when the response id is 0. -/
def getAsyncResponse (s : Host) (rootAid : ℕ) : Except Failure (Blob × ℕ) := do
  let (_, recordId, value) ← doRpcCall (Handlers.handleGetAsyncResponse s rootAid)
  return (value, recordId)

def getEssentials (s : Host) (aid : ℕ) : Except Failure RequestEssentials := do
  let (uuidStr, optTitle) ← doRpcCall (Handlers.handleGetEssentials s aid)
  return if optTitle.isEmpty then { uuidStr } else { uuidStr, title := some optTitle }

def requestCancellation (s : Host) (aid : ℕ) : Except Failure Host := do
  let (_, s') ← doRpcCall (Handlers.handleRequestCancellation s aid)
  return s'

def finishAsync (s : Host) (rootAid : ℕ) : Except Failure Host := do
  let (_, s') ← doRpcCall (Handlers.handleFinishAsync s rootAid)
  return s'

end RpclibClient

/-! ## Runs of calls -/

/-- The calls on a `remote_proxy` after `submit_async`. -/
inductive Call
  | getSubContexts (aid : ℕ)
  | getAsyncStatus (aid : ℕ)
  | getAsyncErrorMessage (aid : ℕ)
  | getAsyncResponse (rootAid : ℕ)
  | getEssentials (aid : ℕ)
  | requestCancellation (aid : ℕ)
  | finishAsync (rootAid : ℕ)
  deriving DecidableEq, Repr

inductive Answer
  | specs (l : List (ℕ × Bool))
  | status (st : AsyncStatus)
  | message (errmsg : String)
  | response (value : Blob) (recordId : ℕ)
  | essentials (e : RequestEssentials)
  | done
  deriving DecidableEq

/-- Keep the state when a call that changes it throws. -/
def settle (s : Host) : Except Failure Host → Except Failure Answer × Host
  | .error e => (.error e, s)
  | .ok s' => (.ok .done, s')

/-- A call answered by the loopback service. -/
def LoopbackService.call (s : Host) : Call → Except Failure Answer × Host
  | .getSubContexts aid => (.specs <$> getSubContexts s aid, s)
  | .getAsyncStatus aid => (.status <$> getAsyncStatus s aid, s)
  | .getAsyncErrorMessage aid => (.message <$> getAsyncErrorMessage s aid, s)
  | .getAsyncResponse rootAid =>
      ((fun r => .response r.1 r.2) <$> getAsyncResponse s rootAid, s)
  | .getEssentials aid => (.essentials <$> getEssentials s aid, s)
  | .requestCancellation aid => settle s (requestCancellation s aid)
  | .finishAsync rootAid => settle s (finishAsync s rootAid)

/-- A call made through the rpclib client. -/
def RpclibClient.call (s : Host) : Call → Except Failure Answer × Host
  | .getSubContexts aid => (.specs <$> getSubContexts s aid, s)
  | .getAsyncStatus aid => (.status <$> getAsyncStatus s aid, s)
  | .getAsyncErrorMessage aid => (.message <$> getAsyncErrorMessage s aid, s)
  | .getAsyncResponse rootAid =>
      ((fun r => .response r.1 r.2) <$> getAsyncResponse s rootAid, s)
  | .getEssentials aid => (.essentials <$> getEssentials s aid, s)
  | .requestCancellation aid => settle s (requestCancellation s aid)
  | .finishAsync rootAid => settle s (finishAsync s rootAid)

/-- What happens at a service: the client calls, or the resolutions that run on it, and new
submissions, change the contexts in some way. -/
inductive Event
  | call (c : Call)
  | progress (s' : Host)

/-- The answers that the client gets. -/
def answers (call : Host → Call → Except Failure Answer × Host) (s : Host) :
    List Event → List (Except Failure Answer)
  | [] => []
  | .call c :: es => (call s c).1 :: answers call (call s c).2 es
  | .progress s' :: es => answers call s' es

/-! ## Renaming ids -/

section
variable (σ : Equiv.Perm ℕ)

def ContextInfo.rename (i : ContextInfo) : ContextInfo := { i with id := σ i.id }

mutual

def Context.rename : Context → Context
  | .node i cs => .node (i.rename σ) (Context.renameAll cs)

def Context.renameAll : List Context → List Context
  | [] => []
  | c :: cs => c.rename :: Context.renameAll cs

end

def Host.rename (s : Host) : Host where
  entries aid := (s.entries (σ.symm aid)).map (·.rename σ)
  cancellationRequested := s.cancellationRequested

def Call.rename : Call → Call
  | .getSubContexts aid => .getSubContexts (σ aid)
  | .getAsyncStatus aid => .getAsyncStatus (σ aid)
  | .getAsyncErrorMessage aid => .getAsyncErrorMessage (σ aid)
  | .getAsyncResponse rootAid => .getAsyncResponse (σ rootAid)
  | .getEssentials aid => .getEssentials (σ aid)
  | .requestCancellation aid => .requestCancellation (σ aid)
  | .finishAsync rootAid => .finishAsync (σ rootAid)

def Event.rename : Event → Event
  | .call c => .call (c.rename σ)
  | .progress s' => .progress (s'.rename σ)

def Answer.rename : Answer → Answer
  | .specs l => .specs (l.map fun spec => (σ spec.1, spec.2))
  | .status st => .status st
  | .message errmsg => .message errmsg
  | .response value recordId => .response value recordId
  | .essentials e => .essentials e
  | .done => .done

/-- Both services answer with equal results, or both throw. -/
def Agree : Except Failure Answer → Except Failure Answer → Prop
  | .ok a, .ok b => b = a.rename σ
  | .error _, .error _ => True
  | _, _ => False

end

/-! ## Ids do not matter -/

section
variable (σ : Equiv.Perm ℕ)

@[simp] theorem Context.rename_info (c : Context) : (c.rename σ).info = c.info.rename σ := by
  cases c
  rfl

theorem Context.renameAll_eq_map (cs : List Context) :
    Context.renameAll σ cs = cs.map (·.rename σ) := by
  induction cs with
  | nil => rfl
  | cons c cs ih => rw [Context.renameAll, ih, List.map_cons]

theorem Context.rename_subs (c : Context) : (c.rename σ).subs = c.subs.map (·.rename σ) := by
  cases c with
  | node i cs => exact Context.renameAll_eq_map σ cs

theorem subSpecs_rename (c : Context) :
    subSpecs (c.rename σ) = (subSpecs c).map fun spec => (σ spec.1, spec.2) := by
  simp [subSpecs, Context.rename_subs, ContextInfo.rename, Function.comp_def]

theorem Host.entries_rename (s : Host) (aid : ℕ) :
    (s.rename σ).entries (σ aid) = (s.entries aid).map (·.rename σ) := by
  simp [Host.rename]

/-- The entries of the renamed database. -/
def renameEntries (entries : ℕ → Option Context) : ℕ → Option Context :=
  fun aid => (entries (σ.symm aid)).map (·.rename σ)

theorem renameEntries_update (entries : ℕ → Option Context) (aid : ℕ) :
    Function.update (renameEntries σ entries) (σ aid) none =
      renameEntries σ (Function.update entries aid none) := by
  funext x
  by_cases hx : x = σ aid
  · subst hx
    simp [renameEntries]
  · have hne : σ.symm x ≠ aid := fun h => hx (by rw [← h, Equiv.apply_symm_apply])
    simp [renameEntries, Function.update_of_ne hx, Function.update_of_ne hne]

mutual

theorem removeSubtree_rename (entries : ℕ → Option Context) (c : Context) :
    removeSubtree (renameEntries σ entries) (c.rename σ) =
      renameEntries σ (removeSubtree entries c) := by
  cases c with
  | node i cs =>
      simp only [Context.rename, removeSubtree, ContextInfo.rename]
      rw [removeSubtrees_rename entries cs, renameEntries_update]

theorem removeSubtrees_rename (entries : ℕ → Option Context) (cs : List Context) :
    removeSubtrees (renameEntries σ entries) (Context.renameAll σ cs) =
      renameEntries σ (removeSubtrees entries cs) := by
  cases cs with
  | nil => rfl
  | cons c cs =>
      simp only [Context.renameAll, removeSubtrees]
      rw [removeSubtree_rename entries c, removeSubtrees_rename (removeSubtree entries c) cs]

end

theorem entries_rename_some {s : Host} {aid : ℕ} {c : Context} (h : s.entries aid = some c) :
    (s.rename σ).entries (σ aid) = some (c.rename σ) := by
  simp [Host.entries_rename, h]

theorem find_rename {s : Host} {aid : ℕ} {c : Context} (h : s.entries aid = some c) :
    (s.rename σ).find (σ aid) = .ok (c.rename σ) := by
  simp [Host.find, Host.entries_rename, h]

end

theorem find_some {s : Host} {aid : ℕ} {c : Context} (h : s.entries aid = some c) :
    s.find aid = .ok c := by
  simp [Host.find, h]

theorem find_none {s : Host} {aid : ℕ} (h : s.entries aid = none) :
    s.find aid = .error (.unknownAsyncId aid) := by
  simp [Host.find, h]

theorem findRoot_some {s : Host} {aid : ℕ} {c : Context} {r : RootInfo}
    (h : s.entries aid = some c) (hr : c.info.root = some r) : s.findRoot aid = .ok (c, r) := by
  simp [Host.findRoot, find_some h, hr, bind, Except.bind]

theorem findRoot_none {s : Host} {aid : ℕ} {c : Context} (h : s.entries aid = some c)
    (hr : c.info.root = none) : s.findRoot aid = .error (.noRoot aid) := by
  simp [Host.findRoot, find_some h, hr, bind, Except.bind]

/-- The id that a call is about. -/
def Call.aid : Call → ℕ
  | .getSubContexts aid | .getAsyncStatus aid | .getAsyncErrorMessage aid | .getAsyncResponse aid
  | .getEssentials aid | .requestCancellation aid | .finishAsync aid => aid

theorem LoopbackService.call_unknown {s : Host} {c : Call} (h : s.entries c.aid = none) :
    call s c = (.error (.unknownAsyncId c.aid), s) := by
  have hfind := find_none h
  cases c <;> simp only [Call.aid] at hfind ⊢ <;>
    simp only [call, getSubContexts, getAsyncStatus, getAsyncErrorMessage, getAsyncResponse,
      getEssentials, requestCancellation, finishAsync, Host.findRoot, Host.removeTree,
      hfind] <;>
    rfl

theorem RpclibClient.call_unknown {s : Host} {c : Call} (h : s.entries c.aid = none) :
    call s c = (.error (.remoteError (.unknownAsyncId c.aid)), s) := by
  have hfind := find_none h
  cases c <;> simp only [Call.aid] at hfind ⊢ <;>
    simp only [call, getSubContexts, getAsyncStatus, getAsyncErrorMessage, getAsyncResponse,
      getEssentials, requestCancellation, finishAsync, Handlers.handleGetSubContexts,
      Handlers.handleGetAsyncStatus, Handlers.handleGetAsyncErrorMessage,
      Handlers.handleGetAsyncResponse, Handlers.handleGetEssentials,
      Handlers.handleRequestCancellation, Handlers.handleFinishAsync, Host.findRoot,
      Host.removeTree, hfind] <;>
    rfl

/-! ## Call by call -/

theorem toStatus_ofStatus (st : AsyncStatus) :
    RpclibClient.toStatus (Handlers.ofStatus st) = st := by
  cases st <;> rfl

/-- The title survives the way through `rpclib_essentials` unless it is empty. -/
theorem title_transfer (e : RequestEssentials) :
    (if (e.title.getD "").isEmpty then { uuidStr := e.uuidStr }
      else { uuidStr := e.uuidStr, title := some (e.title.getD "") : RequestEssentials }) = e
      ↔ e.title ≠ some "" := by
  obtain ⟨uuidStr, title⟩ := e
  cases title with
  | none => simp
  | some t =>
      by_cases ht : t = ""
      · simp [ht]
      · have hne : t.isEmpty = false := by simpa [String.isEmpty_iff] using ht
        simp [ht, hne]

/-- The calls on which the services cannot differ: all but `get_essentials` for a context below
a root that has essentials, or for a root whose title is empty. -/
def PlainCall (s : Host) : Call → Prop
  | .getEssentials aid => ∀ c e, s.entries aid = some c → c.info.essentials = some e →
      c.info.root.isSome = true ∧ e.title ≠ some ""
  | _ => True

section
variable (σ : Equiv.Perm ℕ) {s : Host} {aid : ℕ} {c : Context}

theorem getSubContexts_agree (h : s.entries aid = some c) :
    Agree σ (LoopbackService.call s (.getSubContexts aid)).1
      (RpclibClient.call (s.rename σ) (.getSubContexts (σ aid))).1 := by
  simp only [LoopbackService.call, LoopbackService.getSubContexts, RpclibClient.call,
    RpclibClient.getSubContexts, Handlers.handleGetSubContexts, find_rename σ h, find_some h]
  exact congrArg Answer.specs (subSpecs_rename σ c)

theorem getAsyncStatus_agree (h : s.entries aid = some c) :
    Agree σ (LoopbackService.call s (.getAsyncStatus aid)).1
      (RpclibClient.call (s.rename σ) (.getAsyncStatus (σ aid))).1 := by
  simp only [LoopbackService.call, LoopbackService.getAsyncStatus, RpclibClient.call,
    RpclibClient.getAsyncStatus, Handlers.handleGetAsyncStatus, find_rename σ h, find_some h]
  cases c with
  | node i cs => exact congrArg Answer.status (toStatus_ofStatus i.status)

theorem getAsyncErrorMessage_agree (h : s.entries aid = some c) :
    Agree σ (LoopbackService.call s (.getAsyncErrorMessage aid)).1
      (RpclibClient.call (s.rename σ) (.getAsyncErrorMessage (σ aid))).1 := by
  simp only [LoopbackService.call, LoopbackService.getAsyncErrorMessage, RpclibClient.call,
    RpclibClient.getAsyncErrorMessage, Handlers.handleGetAsyncErrorMessage, find_rename σ h,
    find_some h]
  cases c with
  | node i cs => rfl

theorem getAsyncResponse_agree (h : s.entries aid = some c) :
    Agree σ (LoopbackService.call s (.getAsyncResponse aid)).1
      (RpclibClient.call (s.rename σ) (.getAsyncResponse (σ aid))).1 := by
  have h' := entries_rename_some σ h
  simp only [LoopbackService.call, LoopbackService.getAsyncResponse, RpclibClient.call,
    RpclibClient.getAsyncResponse, Handlers.handleGetAsyncResponse]
  cases hr : c.info.root with
  | none =>
      rw [findRoot_none h hr, findRoot_none h' (by rw [Context.rename_info]; exact hr)]
      trivial
  | some r =>
      rw [findRoot_some h hr, findRoot_some h' (by rw [Context.rename_info]; exact hr)]
      -- the precondition of `get_result` does not look at ids
      by_cases hg : r.usingResult = true ∧ c.info.status = .finished
      · have hok : c.getResult r = .ok r.result := if_pos hg
        have hok' : (c.rename σ).getResult r = .ok r.result :=
          if_pos (by rw [Context.rename_info]; exact hg)
        simp only [bind, Except.bind, hok, hok']
        rfl
      · have herr : c.getResult r = .error _ := if_neg hg
        have herr' : (c.rename σ).getResult r = .error _ :=
          if_neg (by rw [Context.rename_info]; exact hg)
        simp only [bind, Except.bind, herr, herr']
        trivial

theorem getEssentials_agree_iff (h : s.entries aid = some c) :
    Agree σ (LoopbackService.call s (.getEssentials aid)).1
      (RpclibClient.call (s.rename σ) (.getEssentials (σ aid))).1 ↔
      PlainCall s (.getEssentials aid) := by
  have hplain : PlainCall s (.getEssentials aid) ↔ ∀ e, c.info.essentials = some e →
      c.info.root.isSome = true ∧ e.title ≠ some "" := by
    constructor
    · exact fun hp e he => hp c e h he
    · intro hp c' e hc' he
      obtain rfl := Option.some.inj (h.symm.trans hc')
      exact hp e he
  rw [hplain]
  simp only [LoopbackService.call, LoopbackService.getEssentials, RpclibClient.call,
    RpclibClient.getEssentials, Handlers.handleGetEssentials, find_rename σ h]
  cases he : c.info.essentials with
  | none =>
      have hnone : c.getEssentials = .error (.noEssentials c.info.id) := by
        simp [Context.getEssentials, he]
      have hnone' : (c.rename σ).getEssentials = .error (.noEssentials (σ c.info.id)) := by
        simp [Context.getEssentials, ContextInfo.rename, he]
      refine iff_of_true ?_ (by simp)
      cases hr : c.info.root with
      | none =>
          simp only [findRoot_none h hr, bind, Except.bind, hnone']
          trivial
      | some r =>
          simp only [findRoot_some h hr, bind, Except.bind, hnone, hnone']
          trivial
  | some e =>
      have hsome : c.getEssentials = .ok e := by simp [Context.getEssentials, he]
      have hsome' : (c.rename σ).getEssentials = .ok e := by
        simp [Context.getEssentials, ContextInfo.rename, he]
      cases hr : c.info.root with
      | none =>
          simp only [findRoot_none h hr, bind, Except.bind, hsome']
          simp [Agree, RpclibClient.doRpcCall, Except.mapError, pure, Except.pure, Functor.map,
            Except.map]
      | some r =>
          simp only [findRoot_some h hr, bind, Except.bind, hsome, hsome']
          simp only [Agree, RpclibClient.doRpcCall, Except.mapError, pure, Except.pure,
            Functor.map, Except.map, Answer.rename, Answer.essentials.injEq, title_transfer]
          simp

theorem requestCancellation_agree (h : s.entries aid = some c) :
    Agree σ (LoopbackService.call s (.requestCancellation aid)).1
        (RpclibClient.call (s.rename σ) (.requestCancellation (σ aid))).1
      ∧ (RpclibClient.call (s.rename σ) (.requestCancellation (σ aid))).2 =
        (LoopbackService.call s (.requestCancellation aid)).2.rename σ := by
  simp only [LoopbackService.call, LoopbackService.requestCancellation, RpclibClient.call,
    RpclibClient.requestCancellation, Handlers.handleRequestCancellation, find_rename σ h,
    find_some h]
  cases c with
  | node i cs => exact ⟨rfl, rfl⟩

theorem finishAsync_agree (h : s.entries aid = some c) :
    Agree σ (LoopbackService.call s (.finishAsync aid)).1
        (RpclibClient.call (s.rename σ) (.finishAsync (σ aid))).1
      ∧ (RpclibClient.call (s.rename σ) (.finishAsync (σ aid))).2 =
        (LoopbackService.call s (.finishAsync aid)).2.rename σ := by
  simp only [LoopbackService.call, LoopbackService.finishAsync, RpclibClient.call,
    RpclibClient.finishAsync, Handlers.handleFinishAsync, Host.removeTree, find_rename σ h,
    find_some h]
  exact ⟨rfl, congrArg (Host.mk · s.cancellationRequested) (removeSubtree_rename σ s.entries c)⟩

end

section
variable (σ : Equiv.Perm ℕ)

/-- One call is answered alike exactly if it is a plain one, and changes both services
alike in any case. -/
theorem call_agree_iff (s : Host) (c : Call) :
    (Agree σ (LoopbackService.call s c).1 (RpclibClient.call (s.rename σ) (c.rename σ)).1 ↔
      PlainCall s c)
    ∧ (RpclibClient.call (s.rename σ) (c.rename σ)).2 =
      (LoopbackService.call s c).2.rename σ := by
  cases h : s.entries c.aid with
  | none =>
      have haid : (c.rename σ).aid = σ c.aid := by cases c <;> rfl
      have h' : (s.rename σ).entries (c.rename σ).aid = none := by
        rw [haid, Host.entries_rename, h]
        rfl
      rw [LoopbackService.call_unknown h, RpclibClient.call_unknown h']
      refine ⟨iff_of_true trivial ?_, rfl⟩
      cases c with
      | getEssentials aid => exact fun c e hc => absurd (h.symm.trans hc) (by simp)
      | _ => trivial
  | some ctx =>
      cases c with
      | getSubContexts aid => exact ⟨iff_of_true (getSubContexts_agree σ h) trivial, rfl⟩
      | getAsyncStatus aid => exact ⟨iff_of_true (getAsyncStatus_agree σ h) trivial, rfl⟩
      | getAsyncErrorMessage aid =>
          exact ⟨iff_of_true (getAsyncErrorMessage_agree σ h) trivial, rfl⟩
      | getAsyncResponse aid => exact ⟨iff_of_true (getAsyncResponse_agree σ h) trivial, rfl⟩
      | getEssentials aid => exact ⟨getEssentials_agree_iff σ h, rfl⟩
      | requestCancellation aid =>
          obtain ⟨hans, hstate⟩ := requestCancellation_agree σ h
          exact ⟨iff_of_true hans trivial, hstate⟩
      | finishAsync aid =>
          obtain ⟨hans, hstate⟩ := finishAsync_agree σ h
          exact ⟨iff_of_true hans trivial, hstate⟩

/-! ## Whole runs -/

/-- The state after an event at the loopback service. -/
def step (s : Host) : Event → Option Host
  | .call c => some (LoopbackService.call s c).2
  | .progress s' => some s'

def Plain (s : Host) : Event → Prop
  | .call c => PlainCall s c
  | .progress _ => True

/-- Whatever the client calls and however the resolutions progress, the loopback service and
the rpclib client give the same answers exactly if every call is a plain one. -/
theorem services_agree_iff (s : Host) (es : List Event) :
    List.Forall₂ (Agree σ) (answers LoopbackService.call s es)
        (answers RpclibClient.call (s.rename σ) (es.map (Event.rename σ))) ↔
      Transition.StepsMeet step Plain s es := by
  induction es generalizing s with
  | nil => exact iff_of_true .nil trivial
  | cons e es ih =>
      cases e with
      | call c =>
          obtain ⟨hans, hstate⟩ := call_agree_iff σ s c
          rw [Transition.stepsMeet_cons (show step s (.call c) = some _ from rfl), ← ih]
          simp only [answers, List.map_cons, Event.rename, List.forall₂_cons, hans, hstate, Plain]
      | progress s' =>
          rw [Transition.stepsMeet_cons (show step s (.progress s') = some s' from rfl), ← ih]
          simp only [answers, List.map_cons, Event.rename, Plain, true_and]

end

/-- A submitted request with one sub-request: the contexts 1 and 2. -/
def submitted (title : Option String) : Host :=
  let sub : Context :=
    .node { id := 2, isReq := true, treeCtx := 0, essentials := some { uuidStr := "inner" } } []
  let root : Context :=
    .node { id := 1, isReq := true, treeCtx := 0,
            essentials := some { uuidStr := "outer", title },
            root := some { usingResult := true, result := Remote.nullBlob, cacheRecordId := 0 } }
      [sub]
  { entries := fun aid => if aid = 1 then some root else if aid = 2 then some sub else none
    cancellationRequested := fun _ => false }

/-- The services differ on the essentials of a sub-request, which only the RPC service gives
away, and on an empty title, which only the loopback service keeps. -/
theorem essentials_differ :
    ¬ List.Forall₂ (Agree (Equiv.refl ℕ))
        (answers LoopbackService.call (submitted none)
          [.call (.getSubContexts 1), .call (.getEssentials 2)])
        (answers RpclibClient.call ((submitted none).rename (Equiv.refl ℕ))
          [.call (.getSubContexts 1), .call (.getEssentials 2)])
    ∧ ¬ List.Forall₂ (Agree (Equiv.refl ℕ))
        (answers LoopbackService.call (submitted (some "")) [.call (.getEssentials 1)])
        (answers RpclibClient.call ((submitted (some "")).rename (Equiv.refl ℕ))
          [.call (.getEssentials 1)]) := by
  constructor
  · intro h
    obtain ⟨-, h⟩ := List.forall₂_cons.mp h
    obtain ⟨h, -⟩ := List.forall₂_cons.mp h
    have hplain := (call_agree_iff (Equiv.refl ℕ) (submitted none) (.getEssentials 2)).1.mp h
    exact absurd (hplain _ _ rfl rfl).1 (by simp [Context.info])
  · intro h
    obtain ⟨h, -⟩ := List.forall₂_cons.mp h
    have hplain :=
      (call_agree_iff (Equiv.refl ℕ) (submitted (some "")) (.getEssentials 1)).1.mp h
    exact (hplain _ _ rfl rfl).2 rfl

end Cradle.Interchange
