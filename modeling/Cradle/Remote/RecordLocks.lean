import Cradle.Core.Bytes
import Cradle.Lib.Coro
import Cradle.Lib.Table

/-!
# Record locks held on behalf of clients

A client that resolves a request remotely can ask for a lock on the memory cache record.
The server keeps such a lock in a table until the client releases it, by the id that came
with the response.  The lock is allocated while the call is being prepared; what is left
of the preparation, the resolution itself and the calls after it can all throw, and no
handler takes the lock back.  A client that gets an error has no id to release.

Every stage of a call is an `Except`; the table of locks is the only state.  An exception
reaches the client as an error response or as the status of the asynchronous resolution,
or is lost in the thread pool; the table is the same in each case.
-/

namespace Cradle.Remote

variable {K : Type}

/-- What ends a resolution before its time. -/
inductive Failure
  | cancelled
  | error (what : String)
  deriving DecidableEq

/-! ## Configurations -/

inductive ConfigValue
  | string (s : String)
  | number (n : ℕ)
  | bool (b : Bool)

structure ServiceConfig where
  configMap : List (String × ConfigValue)

namespace ServiceConfig

variable {α : Type} (get : ConfigValue → Option α)

def convertValue (value : ConfigValue) (key : String) : Except Failure α :=
  match get value with
  | some a => .ok a
  | none => .error (.error ("Bad type for config \"" ++ key ++ "\""))

def getOptional (config : ServiceConfig) (key : String) : Except Failure (Option α) :=
  match config.configMap.lookup key with
  | none => .ok none
  | some value => (convertValue get value key).map some

def getMandatory (config : ServiceConfig) (key : String) : Except Failure α :=
  match config.configMap.lookup key with
  | none => .error (.error ("Missing mandatory config \"" ++ key ++ "\""))
  | some value => convertValue get value key

def getValueOrDefault (config : ServiceConfig) (key : String) (defaultValue : α) :
    Except Failure α :=
  match config.configMap.lookup key with
  | none => .ok defaultValue
  | some value => convertValue get value key

def getMandatoryString : ServiceConfig → String → Except Failure String :=
  getMandatory fun
    | .string s => some s
    | _ => none

def getOptionalNumber : ServiceConfig → String → Except Failure (Option ℕ) :=
  getOptional fun
    | .number n => some n
    | _ => none

def getBoolOrDefault : ServiceConfig → String → Bool → Except Failure Bool :=
  getValueOrDefault fun
    | .bool b => some b
    | _ => none

end ServiceConfig

namespace RemoteConfigKeys

def domainName : String := "remote/domain"
def taskletId : String := "remote/tasklet_id"
def needRecordLock : String := "remote/need_record_lock"

end RemoteConfigKeys

/-! ## The table -/

/-- A `cache_record_lock` with its id; the record is set during the resolution. -/
structure RecordLock (K : Type) where
  id : ℕ
  record : Option K := none
  deriving DecidableEq

/-- The locks of the server's resources; id 0 is the one that is not set. -/
structure LockTable (K : Type) where
  nextRemoteRecordId : ℕ
  cacheRecordLocks : Table (RecordLock.id (K := K))
  next_pos : 0 < nextRemoteRecordId
  id_lt : ∀ l ∈ cacheRecordLocks, l.id < nextRemoteRecordId

namespace LockTable

def empty : LockTable K where
  nextRemoteRecordId := 1
  cacheRecordLocks := ∅
  next_pos := Nat.one_pos
  id_lt := fun l hl => absurd hl (Table.not_mem_empty l)

theorem next_fresh (t : LockTable K) : ¬ t.cacheRecordLocks.Has t.nextRemoteRecordId := by
  intro h
  obtain ⟨l, hl, hid⟩ := h
  have := t.id_lt l hl
  omega

/-- `alloc_cache_record_lock`; the id is `nextRemoteRecordId`. -/
def allocCacheRecordLock (t : LockTable K) : LockTable K where
  nextRemoteRecordId := t.nextRemoteRecordId + 1
  cacheRecordLocks := t.cacheRecordLocks.insert { id := t.nextRemoteRecordId }
  next_pos := Nat.succ_pos _
  id_lt := by
    intro l hl
    rcases (Table.mem_insert t.next_fresh).mp hl with hl | hl
    · exact Nat.lt_succ_of_lt (t.id_lt l hl)
    · rw [hl]
      exact Nat.lt_succ_self _

/-- `set_record` on the lock with the given id. -/
def setRecord (t : LockTable K) (recordId : ℕ) (record : K) : LockTable K where
  nextRemoteRecordId := t.nextRemoteRecordId
  cacheRecordLocks := t.cacheRecordLocks.modify recordId ({ · with record := some record })
    fun _ => rfl
  next_pos := t.next_pos
  id_lt := by
    intro l hl
    obtain ⟨l₀, hl₀, rfl⟩ := (Table.mem_modify _).mp hl
    have := t.id_lt l₀ hl₀
    split
    · exact this
    · exact this

def releaseCacheRecordLock (t : LockTable K) (recordId : ℕ) : LockTable K where
  nextRemoteRecordId := t.nextRemoteRecordId
  cacheRecordLocks := t.cacheRecordLocks.erase recordId
  next_pos := t.next_pos
  id_lt := fun l hl => t.id_lt l (Table.mem_erase.mp hl).1

end LockTable

/-- In both services. -/
def allocCacheRecordLockIfNeeded (needRecordLock : Bool) :
    Coro (LockTable K) Failure ℕ := fun t =>
  if needRecordLock then (.value t.nextRemoteRecordId, t.allocCacheRecordLock)
  else (.value 0, t)

/-- The resolution has found the memory cache record, and locks it if there is a lock. -/
def lockRecord (recordId : ℕ) (record : Option K) : Coro (LockTable K) Failure Unit := fun t =>
  match record with
  | some k => (.value ⟨⟩, if recordId = 0 then t else t.setRecord recordId k)
  | none => (.value ⟨⟩, t)

/-! ## The handlers -/

/-- What the handlers use: domains `D`, contexts `X`, resolvers `R`, requests `Q` and
values `V`.  Each of them succeeds or throws. -/
structure ServerEnv (D X R Q V K : Type) where
  claimSyncRequestThread : Except Failure Unit
  readConfigMapFromJson : String → Except Failure ServiceConfig
  /-- `read` on a requests storage. -/
  readStorage : String → String → Except Failure (Option String)
  findDomain : String → Except Failure D
  makeLocalSyncContext : D → ServiceConfig → Except Failure X
  makeLocalAsyncContext : D → ServiceConfig → Except Failure X
  applyFailSubmitAsync : X → Except Failure Unit
  /-- `add` on the `async_db`. -/
  addToAsyncDb : X → Except Failure Unit
  isIntrospective : X → Bool
  createTaskletTracker : ℕ → Except Failure Unit
  /-- `detach_task` on the pool for asynchronous requests. -/
  detachTask : Except Failure Unit
  extractUuidStr : String → Except Failure String
  findResolver : String → Except Failure R
  deserializeRequest : R → String → Except Failure Q
  /-- The memory cache record that was found, if it came to that, and the value. -/
  resolveRequest : X → Q → Option K × Except Failure V
  serializeValue : V → Except Failure Bytes
  setResult : X → Bytes → Except Failure Unit
  onValueComplete : X → Except Failure Unit

/-- What a handler is about to do when it allocates the lock. -/
structure ResolveJob (X : Type) where
  needRecordLock : Bool
  /-- The rest of the preparation; it gives the context. -/
  prepare : Except Failure X
  seriReq : String
  /-- What follows the resolution. -/
  conclude : X → Bytes → Except Failure Unit

namespace ServerEnv

variable {D X R Q V : Type} (env : ServerEnv D X R Q V K)

def resolveSerializedLocal (ctx : X) (seriReq : String) : Option K × Except Failure Bytes :=
  let deserialized : Except Failure Q := do
    let uuidStr ← env.extractUuidStr seriReq
    let resolver ← env.findResolver uuidStr
    env.deserializeRequest resolver seriReq
  match deserialized with
  | .error e => (none, .error e)
  | .ok req =>
      let (record, value) := env.resolveRequest ctx req
      (record, value.bind env.serializeValue)

/-- A tasklet for a client that has one itself. -/
def createClientTasklet (taskletId : Option ℕ) (ctx : X) : Except Failure Unit :=
  match taskletId with
  | some id => if env.isIntrospective ctx then env.createTaskletTracker id else .ok ⟨⟩
  | none => .ok ⟨⟩

/-- `handle_resolve_sync` of the RPC server. -/
def handleResolveSync (configJson seriReq : String) : Except Failure (ResolveJob X) := do
  env.claimSyncRequestThread
  let config ← env.readConfigMapFromJson configJson
  let domainName ← config.getMandatoryString RemoteConfigKeys.domainName
  let needRecordLock ← config.getBoolOrDefault RemoteConfigKeys.needRecordLock false
  pure
    { needRecordLock
      prepare := do
        let dom ← env.findDomain domainName
        let ctx ← env.makeLocalSyncContext dom config
        let taskletId ← config.getOptionalNumber RemoteConfigKeys.taskletId
        env.createClientTasklet taskletId ctx
        pure ctx
      seriReq
      conclude := fun ctx _ => env.onValueComplete ctx }

/-- `loopback_service::resolve_sync`. -/
def loopbackResolveSync (config : ServiceConfig) (seriReq : String) :
    Except Failure (ResolveJob X) := do
  let domainName ← config.getMandatoryString RemoteConfigKeys.domainName
  let dom ← env.findDomain domainName
  let ctx ← env.makeLocalSyncContext dom config
  let taskletId ← config.getOptionalNumber RemoteConfigKeys.taskletId
  let needRecordLock ← config.getBoolOrDefault RemoteConfigKeys.needRecordLock false
  pure
    { needRecordLock
      prepare := do
        env.createClientTasklet taskletId ctx
        pure ctx
      seriReq
      conclude := fun ctx _ => env.onValueComplete ctx }

/-- What both versions of `resolve_async` do with a value. -/
def concludeAsync (ctx : X) (value : Bytes) : Except Failure Unit := do
  env.setResult ctx value
  env.onValueComplete ctx

/-- `try_handle_submit_async` of the RPC server. -/
def handleSubmitAsync (configJson seriReq : String) : Except Failure (ResolveJob X) := do
  let config ← env.readConfigMapFromJson configJson
  let domainName ← config.getMandatoryString RemoteConfigKeys.domainName
  let dom ← env.findDomain domainName
  let ctx ← env.makeLocalAsyncContext dom config
  env.applyFailSubmitAsync ctx
  env.addToAsyncDb ctx
  let needRecordLock ← config.getBoolOrDefault RemoteConfigKeys.needRecordLock false
  pure
    { needRecordLock
      prepare := do
        env.detachTask
        pure ctx
      seriReq
      conclude := env.concludeAsync }

/-- `loopback_service::submit_async`. -/
def loopbackSubmitAsync (config : ServiceConfig) (seriReq : String) :
    Except Failure (ResolveJob X) := do
  let domainName ← config.getMandatoryString RemoteConfigKeys.domainName
  let dom ← env.findDomain domainName
  let ctx ← env.makeLocalAsyncContext dom config
  env.applyFailSubmitAsync ctx
  env.addToAsyncDb ctx
  let taskletId ← config.getOptionalNumber RemoteConfigKeys.taskletId
  env.createClientTasklet taskletId ctx
  let needRecordLock ← config.getBoolOrDefault RemoteConfigKeys.needRecordLock false
  pure
    { needRecordLock
      prepare := do
        env.detachTask
        pure ctx
      seriReq
      conclude := env.concludeAsync }

/-- `submit_stored`, in front of either version of `submit_async`. -/
def submitStored (submit : String → Except Failure (ResolveJob X)) (storageName key : String) :
    Except Failure (ResolveJob X) := do
  match ← env.readStorage storageName key with
  | none => throw (.error "Request not in storage")
  | some seriReq => submit seriReq

end ServerEnv

/-- The services, each with the form in which it gets a configuration. -/
inductive Entry
  | rpclib (configJson : String)
  | loopback (config : ServiceConfig)

/-- The ways to have a request resolved. -/
inductive ResolveMode
  | sync (seriReq : String)
  | async (seriReq : String)
  | stored (storageName key : String)

namespace ServerEnv

variable {D X R Q V : Type} (env : ServerEnv D X R Q V K)

/-- The handler for a call. -/
def handler : Entry → ResolveMode → Except Failure (ResolveJob X)
  | .rpclib configJson, .sync seriReq => env.handleResolveSync configJson seriReq
  | .rpclib configJson, .async seriReq => env.handleSubmitAsync configJson seriReq
  | .rpclib configJson, .stored storageName key =>
      env.submitStored (env.handleSubmitAsync configJson) storageName key
  | .loopback config, .sync seriReq => env.loopbackResolveSync config seriReq
  | .loopback config, .async seriReq => env.loopbackSubmitAsync config seriReq
  | .loopback config, .stored storageName key =>
      env.submitStored (env.loopbackSubmitAsync config) storageName key

/-- The resolution, and what follows it. -/
def resolveAndConclude (job : ResolveJob X) (recordId : ℕ) (ctx : X) :
    Coro (LockTable K) Failure (Bytes × ℕ) := do
  let resolution := env.resolveSerializedLocal ctx job.seriReq
  lockRecord recordId resolution.1
  let value ← Coro.ofExcept resolution.2
  Coro.ofExcept (job.conclude ctx value)
  pure (value, recordId)

/-- A call with all that it leads to, up to the end of `resolve_async` if there is one.  It
gives the value and the record id of the response, where `resolve_async` leaves the id
in the context. -/
def resolveWithLock (handler : Except Failure (ResolveJob X)) :
    Coro (LockTable K) Failure (Bytes × ℕ) := do
  let job ← Coro.ofExcept handler
  let recordId ← allocCacheRecordLockIfNeeded job.needRecordLock
  let ctx ← Coro.ofExcept job.prepare
  env.resolveAndConclude job recordId ctx

/-- The stages after the allocation of the lock. -/
def afterAlloc (job : ResolveJob X) : Except Failure Bytes := do
  let ctx ← job.prepare
  let value ← (env.resolveSerializedLocal ctx job.seriReq).2
  job.conclude ctx value
  pure value

end ServerEnv

/-! ## What a call leaves in the table -/

/-- A call that throws leaves the table as it was.  One that returns leaves at most one
lock, which is new and has the id that is reported; an id that is not set stands for no
lock. -/
def LeavesNoStray (call : Coro (LockTable K) Failure (Bytes × ℕ)) (t : LockTable K) : Prop :=
  match call t with
  | (.value (_, recordId), t') =>
      if recordId = 0 then t'.cacheRecordLocks = t.cacheRecordLocks
      else ¬ t.cacheRecordLocks.Has recordId
        ∧ ∃ record, t'.cacheRecordLocks = t.cacheRecordLocks.insert ⟨recordId, record⟩
  | (.exception _, t') => t'.cacheRecordLocks = t.cacheRecordLocks
  | (.stuck, _) => False

section
variable {call : Coro (LockTable K) Failure (Bytes × ℕ)} {t t' : LockTable K} {value : Bytes}
  {recordId : ℕ} {e : Failure}

theorem leavesNoStray_of_exception (h : call t = (.exception e, t')) :
    LeavesNoStray call t ↔ t'.cacheRecordLocks = t.cacheRecordLocks := by
  rw [LeavesNoStray]
  rw [h]

theorem leavesNoStray_of_unset (h : call t = (.value (value, 0), t'))
    (ht : t'.cacheRecordLocks = t.cacheRecordLocks) : LeavesNoStray call t := by
  rw [LeavesNoStray]
  rw [h]
  exact ht

theorem leavesNoStray_of_value (h : call t = (.value (value, t.nextRemoteRecordId), t'))
    {record : Option K}
    (ht : t'.cacheRecordLocks = t.cacheRecordLocks.insert ⟨t.nextRemoteRecordId, record⟩) :
    LeavesNoStray call t := by
  rw [LeavesNoStray]
  rw [h]
  simp only [if_neg (Nat.pos_iff_ne_zero.mp t.next_pos)]
  exact ⟨t.next_fresh, record, ht⟩

end

/-- The release by the client makes up for the lock that a call has left. -/
theorem release_of_leavesNoStray {call : Coro (LockTable K) Failure (Bytes × ℕ)}
    {t t' : LockTable K} {value : Bytes} {recordId : ℕ} (h : LeavesNoStray call t)
    (hcall : call t = (.value (value, recordId), t')) (hid : recordId ≠ 0) :
    (t'.releaseCacheRecordLock recordId).cacheRecordLocks = t.cacheRecordLocks := by
  rw [LeavesNoStray] at h
  rw [hcall] at h
  simp only [if_neg hid] at h
  obtain ⟨hfresh, record, ht'⟩ := h
  simp only [LockTable.releaseCacheRecordLock, ht']
  have hkey : RecordLock.id (K := K) ⟨recordId, record⟩ = recordId := rfl
  rw [← hkey] at hfresh
  exact Table.erase_insert hfresh

namespace LockTable

variable {t : LockTable K}

/-- The lock that was allocated is there, with or without its record. -/
theorem lockRecord_alloc (record : Option K) :
    ∃ t' : LockTable K,
      lockRecord t.nextRemoteRecordId record t.allocCacheRecordLock = (.value ⟨⟩, t')
      ∧ t'.cacheRecordLocks = t.cacheRecordLocks.insert ⟨t.nextRemoteRecordId, record⟩ := by
  cases record with
  | none => exact ⟨t.allocCacheRecordLock, rfl, rfl⟩
  | some k =>
      refine ⟨t.allocCacheRecordLock.setRecord t.nextRemoteRecordId k, ?_, ?_⟩
      · simp only [lockRecord, if_neg (Nat.pos_iff_ne_zero.mp t.next_pos)]
      · have hfresh : ¬ t.cacheRecordLocks.Has
          (RecordLock.id (K := K) { id := t.nextRemoteRecordId }) :=
          t.next_fresh
        apply Table.modify_insert hfresh
        intro l
        rfl

theorem insert_ne (l : RecordLock K) (hl : l.id = t.nextRemoteRecordId) :
    t.cacheRecordLocks.insert l ≠ t.cacheRecordLocks := by
  intro h
  have hmem : l ∈ t.cacheRecordLocks := by
    rw [← h]
    exact (Table.mem_insert (hl ▸ t.next_fresh)).mpr (.inr rfl)
  have := t.id_lt l hmem
  omega

end LockTable

theorem lockRecord_unset (record : Option K) (t : LockTable K) :
    lockRecord 0 record t = (.value ⟨⟩, t) := by
  cases record with
  | none => rfl
  | some k => rfl

namespace ServerEnv

variable {D X R Q V : Type} (env : ServerEnv D X R Q V K)

/-- Once the lock is allocated the table changes only where `lockRecord` does, and the call
ends as the stages after the allocation do. -/
theorem resolveWithLock_of_alloc {job : ResolveJob X} {t t₁ : LockTable K} {recordId : ℕ}
    (halloc : allocCacheRecordLockIfNeeded job.needRecordLock t = (.value recordId, t₁))
    {P : LockTable K → Prop} (ht₁ : P t₁)
    (hlock : ∀ record, ∃ t₂, lockRecord recordId record t₁ = (.value (), t₂) ∧ P t₂) :
    ∃ t₂, P t₂ ∧ env.resolveWithLock (.ok job) t
      = Coro.ofExcept ((env.afterAlloc job).map (·, recordId)) t₂ := by
  have hstart : env.resolveWithLock (.ok job) t
      = (Coro.ofExcept job.prepare >>= env.resolveAndConclude job recordId) t₁ :=
    Coro.bind_of_value halloc _
  rw [hstart]
  rw [afterAlloc]
  cases job.prepare with
  | error e => exact ⟨t₁, ht₁, rfl⟩
  | ok ctx =>
      obtain ⟨t₂, hrecord, ht₂⟩ := hlock (env.resolveSerializedLocal ctx job.seriReq).1
      refine ⟨t₂, ht₂, (Coro.bind_of_value hrecord _).trans ?_⟩
      dsimp only [Bind.bind, Except.bind]
      cases (env.resolveSerializedLocal ctx job.seriReq).2 with
      | error e => rfl
      | ok value =>
          dsimp only [Coro.ofExcept]
          cases job.conclude ctx value with
          | error e => rfl
          | ok u => rfl

/-- A call whose handler gets to the allocation leaves no stray lock, unless the lock is
asked for and something throws after that. -/
theorem resolveWithLock_leavesNoStray_iff (job : ResolveJob X) (t : LockTable K) :
    LeavesNoStray (env.resolveWithLock (.ok job)) t
      ↔ (job.needRecordLock = true → ∃ value, env.afterAlloc job = .ok value) := by
  by_cases hneed : job.needRecordLock = true
  · have halloc : allocCacheRecordLockIfNeeded job.needRecordLock t
        = (.value t.nextRemoteRecordId, t.allocCacheRecordLock) := by
      rw [allocCacheRecordLockIfNeeded]
      rw [if_pos hneed]
    -- the lock stays in the table, with or without its record
    obtain ⟨t₂, ⟨record, ht₂⟩, hcall⟩ := env.resolveWithLock_of_alloc halloc
      (P := fun t₂ => ∃ record,
        t₂.cacheRecordLocks = t.cacheRecordLocks.insert ⟨t.nextRemoteRecordId, record⟩)
      ⟨none, rfl⟩
      (fun record => (LockTable.lockRecord_alloc record).imp fun _ h => ⟨h.1, record, h.2⟩)
    cases hafter : env.afterAlloc job with
    | error e =>
        rw [hafter] at hcall
        rw [leavesNoStray_of_exception hcall, ht₂]
        constructor
        · intro h
          exact absurd h (LockTable.insert_ne _ rfl)
        · intro h
          obtain ⟨value, hvalue⟩ := h hneed
          cases hvalue
    | ok value =>
        rw [hafter] at hcall
        constructor
        · intro _ _
          exact ⟨value, rfl⟩
        · intro _
          exact leavesNoStray_of_value hcall ht₂
  · have halloc : allocCacheRecordLockIfNeeded job.needRecordLock t = (.value 0, t) := by
      rw [allocCacheRecordLockIfNeeded]
      rw [if_neg hneed]
    obtain ⟨t₂, ht₂, hcall⟩ := env.resolveWithLock_of_alloc halloc
      (P := fun t₂ => t₂.cacheRecordLocks = t.cacheRecordLocks) rfl
      (fun record => ⟨t, lockRecord_unset record t, rfl⟩)
    refine iff_of_true ?_ fun h => absurd h hneed
    cases hafter : env.afterAlloc job with
    | error e =>
        rw [hafter] at hcall
        exact (leavesNoStray_of_exception hcall).mpr ht₂
    | ok value =>
        rw [hafter] at hcall
        exact leavesNoStray_of_unset hcall ht₂

/-- For every call of either service: the table is left without a stray lock exactly if
no lock was asked for by the time of its allocation, or nothing throws after that. -/
theorem leavesNoStray_iff (entry : Entry) (mode : ResolveMode) (t : LockTable K) :
    LeavesNoStray (env.resolveWithLock (env.handler entry mode)) t
      ↔ ∀ job, env.handler entry mode = .ok job → job.needRecordLock = true →
          ∃ value, env.afterAlloc job = .ok value := by
  cases env.handler entry mode with
  | error e =>
      refine iff_of_true ?_ fun job hjob => by cases hjob
      exact (leavesNoStray_of_exception rfl).mpr rfl
  | ok job =>
      rw [env.resolveWithLock_leavesNoStray_iff job t]
      constructor
      · intro h job' hjob
        cases hjob
        exact h
      · intro h
        exact h job rfl

end ServerEnv

/-- A client's call that asks for a lock. -/
def lockingConfig : ServiceConfig where
  configMap :=
    [(RemoteConfigKeys.domainName, .string "testing"),
      (RemoteConfigKeys.needRecordLock, .bool true)]

/-- A server with one request, whose function throws. -/
def throwingRequest : ServerEnv Unit Unit Unit Unit Unit Unit where
  claimSyncRequestThread := .ok ()
  readConfigMapFromJson := fun _ => .ok lockingConfig
  readStorage := fun _ _ => .ok none
  findDomain := fun _ => .ok ()
  makeLocalSyncContext := fun _ _ => .ok ()
  makeLocalAsyncContext := fun _ _ => .ok ()
  applyFailSubmitAsync := fun _ => .ok ()
  addToAsyncDb := fun _ => .ok ()
  isIntrospective := fun _ => false
  createTaskletTracker := fun _ => .ok ()
  detachTask := .ok ()
  extractUuidStr := fun _ => .ok "throwing"
  findResolver := fun _ => .ok ()
  deserializeRequest := fun _ _ => .ok ()
  resolveRequest := fun _ _ => (some (), .error (.error "throwing"))
  serializeValue := fun _ => .ok []
  setResult := fun _ _ => .ok ()
  onValueComplete := fun _ => .ok ()

def throwingCall : Coro (LockTable Unit) Failure (Bytes × ℕ) :=
  throwingRequest.resolveWithLock <| throwingRequest.handler (.loopback lockingConfig)
    (.sync "\x7b\"uuid\": \"throwing\"\x7d")

/-- The client gets an error; the lock stays, with its record. -/
theorem not_leavesNoStray_throwingCall : ¬ LeavesNoStray throwingCall LockTable.empty := by
  intro h
  have hcall : throwingCall LockTable.empty
      = (.exception (.error "throwing"), LockTable.empty.allocCacheRecordLock.setRecord 1 ()) :=
    rfl
  have hlocks := (leavesNoStray_of_exception hcall).mp h
  have hlength := congrArg (fun locks => locks.rows.length) hlocks
  exact absurd hlength (by decide)

end Cradle.Remote
