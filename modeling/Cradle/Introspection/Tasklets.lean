import Cradle.Lib.Table
import Cradle.Lib.Transition
import Mathlib.Logic.Function.Basic

/-!
# Tasklets

`tasklet_admin` owns the objects that track the tasklets.  A tasklet that works on behalf
of another one, its client, has a pointer to it, and the information on the tasklet
contains the id of the client.  `clear_info` deletes the tasklets that have finished, each
for itself: a client that has finished is deleted also if a tasklet on its behalf goes on,
and the placeholders for the tasklets of an RPC client count as finished from the start.

A pointer is the number of the allocation, so that a new object is not mistaken for one
that was deleted.  Log messages and the times of the events are left out.
-/

namespace Cradle.Introspection

inductive TaskletEventType
  | scheduled | running | beforeCoAwait | afterCoAwait | finished | unknown
  deriving DecidableEq, Repr

/-- The event types in the order of the enumeration. -/
def TaskletEventType.all : List TaskletEventType :=
  [scheduled, running, beforeCoAwait, afterCoAwait, finished, unknown]

/-- A `tasklet_impl`; `events` has the details of the events. -/
structure TaskletImpl where
  pointer : ℕ
  id : ℤ
  isPlaceholder : Bool
  poolName : String
  title : String
  client : Option ℕ
  finished : Bool
  events : TaskletEventType → Option String

namespace TaskletImpl

def addEvent (what : TaskletEventType) (details : String) (t : TaskletImpl) : TaskletImpl :=
  { t with events := Function.update t.events what (some details) }

def removeEvent (what : TaskletEventType) (t : TaskletImpl) : TaskletImpl :=
  { t with events := Function.update t.events what none }

/-- The constructor of the tasklets of this process. -/
def make (pointer : ℕ) (id : ℤ) (poolName title : String) (client : Option ℕ) : TaskletImpl :=
  addEvent .scheduled ""
    { pointer, id, isPlaceholder := false, poolName, title, client, finished := false,
      events := fun _ => none }

/-- The constructor of a placeholder. -/
def makePlaceholder (pointer : ℕ) (rpcClientId : ℤ) : TaskletImpl where
  pointer := pointer
  id := -rpcClientId
  isPlaceholder := true
  poolName := "client"
  title := "client"
  client := none
  finished := true
  events := fun _ => none

def onRunning (t : TaskletImpl) : TaskletImpl := t.addEvent .running ""

def onFinished (t : TaskletImpl) : TaskletImpl :=
  { t with finished := true }.addEvent .finished ""

/-- `on_before_await`; `hash` is that of the cache key. -/
def onBeforeAwait (msg : String) (hash : ℕ) (t : TaskletImpl) : TaskletImpl :=
  (t.addEvent .beforeCoAwait (msg ++ " " ++ toString hash)).removeEvent .afterCoAwait

def onAfterAwait (t : TaskletImpl) : TaskletImpl := t.addEvent .afterCoAwait ""

end TaskletImpl

/-- A `tasklet_info`. -/
structure TaskletInfo where
  ownId : ℤ
  poolName : String
  title : String
  clientId : ℤ
  events : List (TaskletEventType × String)
  deriving DecidableEq, Repr

def noTaskletId : ℤ := 0

/-- `tasklet_admin`, with the number of the next allocation and the next id. -/
structure TaskletAdmin where
  capturingEnabled : Bool := false
  tasklets : Table TaskletImpl.pointer := ∅
  nextPointer : ℕ := 0
  nextId : ℤ := 1

inductive TaskletCall
  | setCapturingEnabled (enabled : Bool)
  | newTasklet (poolName title : String) (client : Option ℕ)
  /-- The overload for an RPC server. -/
  | newPlaceholder (rpcClientId : ℤ)
  | onRunning (tasklet : ℕ)
  | onFinished (tasklet : ℕ)
  | onBeforeAwait (tasklet : ℕ) (msg : String) (hash : ℕ)
  | onAfterAwait (tasklet : ℕ)
  | clearInfo
  deriving DecidableEq, Repr

namespace TaskletAdmin

/-- `new_tasklet`; it reads the id of the client, whose object has to exist. -/
def newTasklet (s : TaskletAdmin) (poolName title : String) (client : Option ℕ) :
    Option TaskletAdmin :=
  if s.capturingEnabled = false then some s
  else if ∀ c ∈ client, s.tasklets.Has c then
    some { s with
      tasklets := s.tasklets.insert (.make s.nextPointer s.nextId poolName title client)
      nextPointer := s.nextPointer + 1
      nextId := s.nextId + 1 }
  else none

def newPlaceholder (s : TaskletAdmin) (rpcClientId : ℤ) : TaskletAdmin :=
  if s.capturingEnabled = false then s
  else { s with
    tasklets := s.tasklets.insert (.makePlaceholder s.nextPointer rpcClientId)
    nextPointer := s.nextPointer + 1 }

/-- A call on a tasklet, which must not have finished. -/
def onTasklet (s : TaskletAdmin) (tasklet : ℕ) (f : TaskletImpl → TaskletImpl)
    (hf : ∀ t, (f t).pointer = t.pointer) : Option TaskletAdmin :=
  match s.tasklets.find? tasklet with
  | none => none
  | some t =>
      if t.finished = true then none
      else some { s with tasklets := s.tasklets.modify tasklet f hf }

/-- `clear_info`. -/
def clearInfo (s : TaskletAdmin) : TaskletAdmin :=
  { s with tasklets := s.tasklets.filter fun t => !t.finished }

/-- A call; `none` where its caller breaks the rules. -/
def step (s : TaskletAdmin) : TaskletCall → Option TaskletAdmin
  | .setCapturingEnabled enabled => some { s with capturingEnabled := enabled }
  | .newTasklet poolName title client => s.newTasklet poolName title client
  | .newPlaceholder rpcClientId => some (s.newPlaceholder rpcClientId)
  | .onRunning tasklet => s.onTasklet tasklet .onRunning fun _ => rfl
  | .onFinished tasklet => s.onTasklet tasklet .onFinished fun _ => rfl
  | .onBeforeAwait tasklet msg hash => s.onTasklet tasklet (.onBeforeAwait msg hash) fun _ => rfl
  | .onAfterAwait tasklet => s.onTasklet tasklet .onAfterAwait fun _ => rfl
  | .clearInfo => some s.clearInfo

/-- The constructor of `tasklet_info`; `none` where it reads a client that was deleted. -/
def taskletInfo (s : TaskletAdmin) (t : TaskletImpl) : Option TaskletInfo := do
  let clientId ← match t.client with
    | none => some noTaskletId
    | some c => (s.tasklets.find? c).map TaskletImpl.id
  return {
    ownId := t.id
    poolName := t.poolName
    title := t.title
    clientId
    events := TaskletEventType.all.filterMap fun what => (t.events what).map (what, ·) }

def getTaskletInfos (s : TaskletAdmin) (includeFinished : Bool) : Option (List TaskletInfo) :=
  (s.tasklets.rows.filter fun t =>
    !t.isPlaceholder && (includeFinished || !t.finished)).mapM s.taskletInfo

/-! ## What the client pointers are meant to be -/

/-- The clients of the tasklets are stored, and the information can be had. -/
structure NoDangling (s : TaskletAdmin) : Prop where
  clients : s.tasklets.RefsResolve TaskletImpl.client
  infos : ∀ includeFinished, (s.getTaskletInfos includeFinished).isSome = true

/-- `clear_info` deletes no client of a tasklet that it keeps. -/
def KeepsClients (s : TaskletAdmin) : TaskletCall → Prop
  | .clearInfo => ∀ t ∈ s.tasklets, t.finished = false →
      ∀ c ∈ s.tasklets, t.client = some c.pointer → c.finished = false
  | _ => True

/-! ## When they are -/

variable {s s' : TaskletAdmin}

theorem isSome_mapM {α β : Type} {f : α → Option β} {xs : List α}
    (h : ∀ x ∈ xs, (f x).isSome = true) : (xs.mapM f).isSome = true := by
  induction xs with
  | nil => rfl
  | cons x xs ih =>
      obtain ⟨hx, hxs⟩ := List.forall_mem_cons.mp h
      obtain ⟨y, hy⟩ := Option.isSome_iff_exists.mp hx
      obtain ⟨ys, hys⟩ := Option.isSome_iff_exists.mp (ih hxs)
      simp [List.mapM_cons, hy, hys]

theorem isSome_taskletInfo {t : TaskletImpl} (h : ∀ c, t.client = some c → s.tasklets.Has c) :
    (s.taskletInfo t).isSome = true := by
  cases hc : t.client with
  | none => simp [taskletInfo, hc]
  | some c =>
      obtain ⟨client, hclient⟩ := Option.isSome_iff_exists.mp (Table.find?_isSome.mpr (h c hc))
      simp [taskletInfo, hc, hclient]

/-- With all clients stored, nothing that was deleted is read. -/
theorem noDangling_of_clients (h : s.tasklets.RefsResolve TaskletImpl.client) :
    s.NoDangling := by
  refine ⟨h, fun includeFinished => isSome_mapM fun t ht => isSome_taskletInfo ?_⟩
  exact h t (List.mem_filter.mp ht).1

/-- The clients are stored, and the next pointer is new. -/
structure Invariant (s : TaskletAdmin) : Prop where
  clients : s.tasklets.RefsResolve TaskletImpl.client
  fresh : ∀ t ∈ s.tasklets, t.pointer < s.nextPointer

theorem Invariant.not_has (h : s.Invariant) : ¬ s.tasklets.Has s.nextPointer := by
  rintro ⟨t, ht, heq⟩
  have := h.fresh t ht
  omega

/-- A new tasklet whose client, if there is one, is stored. -/
theorem Invariant.insert (h : s.Invariant) {t : TaskletImpl} {nextId : ℤ}
    (ht : t.pointer = s.nextPointer) (hclient : ∀ c, t.client = some c → s.tasklets.Has c) :
    Invariant { s with
      tasklets := s.tasklets.insert t, nextPointer := s.nextPointer + 1, nextId } := by
  have hnew : ¬ s.tasklets.Has t.pointer := by
    rw [ht]
    exact h.not_has
  constructor
  · exact h.clients.insert hnew hclient
  · intro u hu
    rcases (Table.mem_insert hnew).mp hu with hu | rfl
    · exact Nat.lt_succ_of_lt (h.fresh u hu)
    · exact Nat.lt_succ_of_le ht.le

theorem Invariant.newTasklet (h : s.Invariant) {poolName title : String} {client : Option ℕ}
    (hstep : s.newTasklet poolName title client = some s') : s'.Invariant := by
  rw [TaskletAdmin.newTasklet] at hstep
  split at hstep
  · rwa [← Option.some.inj hstep]
  · split at hstep
    case isTrue hclient =>
        rw [← Option.some.inj hstep]
        exact h.insert rfl fun c hc => hclient c hc
    case isFalse => simp at hstep

theorem Invariant.newPlaceholder (h : s.Invariant) (rpcClientId : ℤ) :
    (s.newPlaceholder rpcClientId).Invariant := by
  rw [TaskletAdmin.newPlaceholder]
  split
  · exact h
  · exact h.insert rfl (by simp [TaskletImpl.makePlaceholder])

/-- The calls on a tasklet do not change its client. -/
theorem Invariant.onTasklet (h : s.Invariant) {tasklet : ℕ} {f : TaskletImpl → TaskletImpl}
    {hf : ∀ t, (f t).pointer = t.pointer} (hclient : ∀ t, (f t).client = t.client)
    (hstep : s.onTasklet tasklet f hf = some s') : s'.Invariant := by
  rw [TaskletAdmin.onTasklet] at hstep
  split at hstep
  · simp at hstep
  · split at hstep
    · simp at hstep
    · rw [← Option.some.inj hstep]
      constructor
      · exact h.clients.modify hf hclient
      · intro t ht
        obtain ⟨u, hu, rfl⟩ := (Table.mem_modify hf).mp ht
        have := h.fresh u hu
        split
        · rwa [hf]
        · exact this

/-- What is kept has its clients exactly if the call deletes none of them. -/
theorem clearInfo_clients_iff (h : s.tasklets.RefsResolve TaskletImpl.client) :
    s.clearInfo.tasklets.RefsResolve TaskletImpl.client ↔ s.KeepsClients .clearInfo := by
  rw [clearInfo, Table.refsResolve_filter_iff h]
  simp [KeepsClients]

theorem Invariant.clearInfo (h : s.Invariant) (hok : s.KeepsClients .clearInfo) :
    s.clearInfo.Invariant where
  clients := (clearInfo_clients_iff h.clients).mpr hok
  fresh t ht := h.fresh t (Table.mem_filter.mp ht).1

theorem Invariant.step (h : s.Invariant) {call : TaskletCall} (hok : s.KeepsClients call)
    (hstep : s.step call = some s') : s'.Invariant := by
  cases call with
  | setCapturingEnabled enabled =>
      rw [← Option.some.inj hstep]
      exact ⟨h.clients, h.fresh⟩
  | newTasklet poolName title client => exact h.newTasklet hstep
  | newPlaceholder rpcClientId =>
      rw [← Option.some.inj hstep]
      exact h.newPlaceholder rpcClientId
  | onRunning tasklet => exact h.onTasklet (f := TaskletImpl.onRunning) (fun _ => rfl) hstep
  | onFinished tasklet => exact h.onTasklet (f := TaskletImpl.onFinished) (fun _ => rfl) hstep
  | onBeforeAwait tasklet msg hash =>
      exact h.onTasklet (f := TaskletImpl.onBeforeAwait msg hash) (fun _ => rfl) hstep
  | onAfterAwait tasklet =>
      exact h.onTasklet (f := TaskletImpl.onAfterAwait) (fun _ => rfl) hstep
  | clearInfo =>
      rw [← Option.some.inj hstep]
      exact h.clearInfo hok

theorem Invariant.keepsClients (h : s.Invariant) {call : TaskletCall}
    (hstep : s.step call = some s') (h' : s'.NoDangling) : s.KeepsClients call := by
  cases call with
  | clearInfo =>
      rw [← Option.some.inj hstep] at h'
      exact (clearInfo_clients_iff h.clients).mp h'.clients
  | _ => trivial

/-- The client of a running tasklet finishes and is cleared. -/
def clientCleared : List TaskletCall :=
  [.setCapturingEnabled true, .newTasklet "pool" "client" none,
    .newTasklet "pool" "servant" (some 0), .onFinished 0, .clearInfo]

end TaskletAdmin
end Cradle.Introspection
