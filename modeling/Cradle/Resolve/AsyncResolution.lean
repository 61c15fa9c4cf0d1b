import Cradle.Lib.Positions
import Cradle.Lib.Transition
import Cradle.Remote.AsyncContext
import Cradle.Resolve.Containment

/-!
# Asynchronous resolutions

A local asynchronous resolution has a tree of contexts, built after the shape of its request
tree.  Each request of the tree is resolved by a coroutine that is given one of the contexts,
reports its status there, and hands the subcontexts on to the coroutines for its arguments.
Several resolutions share the memory cache.  A cached request that has no record gets one with
a task, which runs on the context of that request; whoever asks for the same key awaits the
task that the record then has.

A step takes a coroutine to the next point where it can meet with others: where it consults a
cache, awaits something or has called a function.  The statuses that one call of
`update_status` stores are stored in one step.  A task runs as soon as there is a record for it;
in the program that may also be on behalf of another coroutine that awaits it.  Locks of
cache records are left out, as is the choice of the thread that a coroutine runs on.

`available` and `fromCache` are not in the program: they tell which requests' values can be had,
and which of these came from a cache.
-/

namespace Cradle.Async

open Resolve
open Remote (AsyncStatus)

/-- The place of a request, or a plain value, in a request tree, and of its context. -/
abbrev Position := List ℕ

/-- What a resolution may throw. -/
inductive AsyncExn
  | asyncCancelled
  | other (e : Exn)
  deriving DecidableEq

/-! ## Contexts -/

/-- A `local_async_context_base` with those below it. -/
inductive ContextTree
  | node (isReq : Bool) (subs : List ContextTree)

namespace ContextTree

def isReq : ContextTree → Bool
  | .node isReq _ => isReq

def subs : ContextTree → List ContextTree
  | .node _ subs => subs

/-- The status at construction. -/
def status (c : ContextTree) : AsyncStatus := if c.isReq then .created else .finished

mutual
/-- `local_async_context_base::update_status` on a context at the given position. -/
def updateStatus (st : AsyncStatus) :
    ContextTree → Position → (Position → AsyncStatus) → Position → AsyncStatus
  | .node _ subs, c, status =>
      Function.update
        (if ¬ (status c).almostFinished ∧ st.almostFinished then finishSubs subs c 0 status
          else status) c st
/-- The contexts below get FINISHED. -/
def finishSubs :
    List ContextTree → Position → ℕ → (Position → AsyncStatus) → Position → AsyncStatus
  | [], _, _, status => status
  | sub :: subs, c, i, status =>
      finishSubs subs c (i + 1) (updateStatus .finished sub (c ++ [i]) status)
end

end ContextTree

variable {T F V K : Type}

/-- The arguments that a tree builder visits. -/
def args : FunctionRequest T F V → List (FunctionRequest T F V)
  | .value _ _ => []
  | .call _ _ _ args => args

def isCall : FunctionRequest T F V → Bool
  | .value _ _ => false
  | .call _ _ _ _ => true

mutual
/-- `local_context_tree_builder_base`. -/
def contextTree : FunctionRequest T F V → ContextTree
  | .value _ _ => .node false []
  | .call _ _ _ args => .node true (contextTrees args)
def contextTrees : List (FunctionRequest T F V) → List ContextTree
  | [] => []
  | a :: as => contextTree a :: contextTrees as
end

/-! ## Coroutines -/

/-- How far the resolution of a request is.  `obj` is the request, or its flattened clone, and
`task` the task of a cache record that the code runs in. -/
inductive Phase (T F V : Type)
  | idle
  | entered
  /-- In `make_flattened_clone`. -/
  | flattening
  /-- About to construct a cache pointer. -/
  | lookup (obj : FunctionRequestImpl T F V)
  /-- In `secondary_cached_blob`. -/
  | secondary (obj : FunctionRequestImpl T F V) (task : ℕ)
  /-- In `resolve_async`. -/
  | direct (obj : FunctionRequestImpl T F V) (task : Option ℕ)
  | subsRunning (obj : FunctionRequestImpl T F V) (task : Option ℕ)
  | selfRunning (obj : FunctionRequestImpl T F V) (task : Option ℕ)
  | returned (obj : FunctionRequestImpl T F V) (task : Option ℕ) (v : V)
  /-- About to record what the task ends with. -/
  | recording (obj : FunctionRequestImpl T F V) (task : ℕ) (result : Except AsyncExn V)
  /-- The cache pointer is there. -/
  | acquired (obj : FunctionRequestImpl T F V)
  | awaiting (obj : FunctionRequestImpl T F V) (task : ℕ)
  /-- In the handler of `resolve_request_with_retry`. -/
  | threw (e : AsyncExn)
  | done (v : V)
  | failed (e : AsyncExn)

/-- The coroutine that resolves a request, and the context that it was given. -/
structure Activity (T F V : Type) where
  ctx : Position := []
  phase : Phase T F V := .idle
  attempt : ℕ := 0

/-- A resolution with its context tree. -/
structure Resolution (T F V : Type) where
  request : FunctionRequest T F V
  usingResult : Bool := false
  cancelled : Bool := false
  status : Position → AsyncStatus := fun c =>
    ((Positions.sub ContextTree.subs (contextTree request) c).map ContextTree.status).getD .created
  activity : Position → Activity T F V := fun _ => {}
  /-- `get_local_sub` was called with an index that is too large. -/
  outOfRange : Bool := false
  available : Position → Bool := fun _ => false
  fromCache : Position → Bool := fun _ => false

/-- Coroutines that are created for arguments. -/
inductive SubTasks (T F V : Type)
  /-- `make_sync_sub_tasks`. -/
  | sync (args : List (FunctionRequest T F V))
  /-- `make_async_sub_tasks`. -/
  | async (args : List (FunctionRequest T F V))

/-- What a coroutine does in a step: it may create coroutines, come by its value, perhaps from a
cache, and update its status. -/
structure Effect (T F V : Type) where
  phase : Phase T F V
  retries : Bool := false
  subTasks : Option (SubTasks T F V) := none
  produces : Bool := false
  cached : Bool := false
  statuses : List AsyncStatus := []

/-- How many subcontexts are accessed. -/
def Effect.neededSubs (e : Effect T F V) : ℕ :=
  match e.subTasks with
  | some (.async args) => args.length
  | _ => 0

namespace Resolution

/-- The request at a position. -/
def object (x : Resolution T F V) (p : Position) : Option (FunctionRequestImpl T F V) :=
  (Positions.sub args x.request p).bind fun
    | .value _ _ => none
    | .call props f c args => some (.ofRequest props f c args)

/-- `get_local_num_subs` of a context. -/
def numSubs (x : Resolution T F V) (c : Position) : ℕ :=
  ((Positions.sub ContextTree.subs (contextTree x.request) c).map (·.subs.length)).getD 0

/-- `update_status` on a context; the root's one does it twice. -/
def updateStatus (x : Resolution T F V) (c : Position) (st : AsyncStatus) : Resolution T F V :=
  match Positions.sub ContextTree.subs (contextTree x.request) c with
  | none => x
  | some context =>
      let status := context.updateStatus st c x.status
      { x with
        status :=
          if c = [] then
            let st := if x.usingResult ∧ st = .finished then .awaitingResult else st
            context.updateStatus st c status
          else status }

/-- Start the coroutines for arguments, each on a context. -/
def start (ctx : ℕ → Position) (p : Position) :
    List (FunctionRequest T F V) → ℕ → (Position → Activity T F V) → Position → Activity T F V
  | [], _, activity => activity
  | a :: as, i, activity =>
      start ctx p as (i + 1)
        (if isCall a then
          Function.update activity (p ++ [i]) { ctx := ctx i, phase := .entered }
        else activity)

/-- Create the coroutines for the arguments of the request at a position. -/
def makeSubTasks (x : Resolution T F V) (p : Position) : SubTasks T F V → Resolution T F V
  | .sync args =>
      { x with activity := start (fun _ => (x.activity p).ctx) p args 0 x.activity }
  | .async args =>
      { x with activity := start (fun i => (x.activity p).ctx ++ [i]) p args 0 x.activity }

/-- The step of the coroutine at a position, if it has the subcontexts that it needs. -/
def proceed (x : Resolution T F V) (p : Position) (e : Effect T F V) : Resolution T F V :=
  let ctx := (x.activity p).ctx
  let attempt := (x.activity p).attempt + if e.retries then 1 else 0
  let x := match e.subTasks with
    | none => x
    | some subTasks => x.makeSubTasks p subTasks
  let x := { x with
    activity := Function.update x.activity p { ctx, phase := e.phase, attempt }
    available := Function.update x.available p (x.available p || e.produces)
    fromCache := Function.update x.fromCache p (x.fromCache p || (e.cached && !x.available p)) }
  e.statuses.foldl (·.updateStatus ctx ·) x

/-- The step of the coroutine at a position.  `make_async_sub_tasks` calls `get_local_sub` for
each argument; with an index that is too large its behaviour is undefined. -/
def apply (x : Resolution T F V) (p : Position) (e : Effect T F V) : Resolution T F V :=
  if e.neededSubs ≤ x.numSubs (x.activity p).ctx then x.proceed p e
  else { x with outOfRange := true }

/-- What the coroutine for an argument has ended with. -/
def resultOf (x : Resolution T F V) (p : Position) (i : ℕ) :
    FunctionRequest T F V → Option (Except AsyncExn V)
  | .value _ v => some (.ok v)
  | .call _ _ _ _ =>
      match (x.activity (p ++ [i])).phase with
      | .done v => some (.ok v)
      | .failed e => some (.error e)
      | _ => none

/-- `when_all`: once all coroutines have ended, their values, or the first exception. -/
def results (x : Resolution T F V) (p : Position) :
    List (FunctionRequest T F V) → ℕ → Option (Except AsyncExn (List V))
  | [], _ => some (.ok [])
  | a :: as, i =>
      (x.resultOf p i a).bind fun r => (x.results p as (i + 1)).map fun rs =>
        r.bind fun v => rs.map (v :: ·)

end Resolution

/-! ## The memory cache -/

/-- `immutable_cache_entry_state`. -/
inductive EntryState
  | loading | ready | failed
  deriving DecidableEq

structure Record where
  task : ℕ
  state : EntryState
  refCount : ℕ

/-- The shared task of a record: the resolution and the position of the request that it runs
for, and what it has ended with. -/
structure Task (V : Type) where
  tree : ℕ
  position : Position
  outcome : Option (Except AsyncExn V) := none

structure MemoryCache (K V : Type) where
  records : K → Option Record := fun _ => none
  tasks : ℕ → Task V := fun _ => ⟨0, [], none⟩
  numTasks : ℕ := 0

namespace MemoryCache

variable [DecidableEq K]

/-- `acquire_cache_record`, with the new task if one is created. -/
def acquire (c : MemoryCache K V) (key : K) (tree : ℕ) (position : Position) :
    MemoryCache K V × Option ℕ :=
  let create (refCount : ℕ) : MemoryCache K V × Option ℕ :=
    ({ records := Function.update c.records key (some ⟨c.numTasks, .loading, refCount + 1⟩)
       tasks := Function.update c.tasks c.numTasks ⟨tree, position, none⟩
       numTasks := c.numTasks + 1 }, some c.numTasks)
  match c.records key with
  | none => create 0
  | some r =>
      if r.state = .failed then create r.refCount
      else ({ c with
        records := Function.update c.records key (some { r with refCount := r.refCount + 1 }) },
        none)

/-- The task ends, with `record_value` or `record_failure`. -/
def record (c : MemoryCache K V) (key : K) (task : ℕ) (result : Except AsyncExn V) :
    MemoryCache K V :=
  let state : EntryState := match result with
    | .ok _ => .ready
    | .error _ => .failed
  { c with
    records := Function.update c.records key ((c.records key).map ({ · with state }))
    tasks := Function.update c.tasks task { c.tasks task with outcome := some result } }

/-- A cache pointer is destroyed. -/
def release (c : MemoryCache K V) (key : K) : MemoryCache K V :=
  { c with
    records := Function.update c.records key
      ((c.records key).map fun r => { r with refCount := r.refCount - 1 }) }

end MemoryCache

/-! ## Steps -/

/-- What the resolutions depend on. -/
structure Env (T F V K : Type) where
  supportCaching : Bool
  /-- `get_captured_id`. -/
  capturedId : FunctionRequestImpl T F V → K

/-- Requests are told apart by their uuids. -/
def uuidEnv : Env Unit ℕ ℕ RequestUuid where
  supportCaching := true
  capturedId := fun obj => obj.props.uuid

/-- What a coroutine learns from outside. -/
inductive Input (V : Type)
  | go
  /-- The secondary cache has the value. -/
  | found (v : V)
  /-- The secondary cache, a conversion of the value or a delay fails. -/
  | fails (e : Exn)
  /-- The function, or the contained process, returns. -/
  | returns (v : V)
  | throws (e : AsyncExn)
  /-- `cancel_delegate`, for a contained process. -/
  | cancelDelegate

structure System (T F V K : Type) where
  resolution : ℕ → Resolution T F V
  numResolutions : ℕ := 0
  cache : MemoryCache K V := {}

/-- No resolution has been started; the request does not matter. -/
def System.initial (r : FunctionRequest T F V) : System T F V K where
  resolution := fun _ => { request := r }

/-- `resolve_async` ends: the coroutine itself, or the task, goes on. -/
def leaveDirect (obj : FunctionRequestImpl T F V) (task : Option ℕ)
    (result : Except AsyncExn V) : Phase T F V :=
  match task, result with
  | some n, result => .recording obj n result
  | none, .ok v => .done v
  | none, .error e => .threw e

/-- The handlers of `resolve_async_coro` and `resolve_async_non_coro`;
`resolve_async_contained` has none. -/
def errorStatuses (obj : FunctionRequestImpl T F V) (e : AsyncExn) : List AsyncStatus :=
  match obj.containment, e with
  | some _, _ => []
  | none, .asyncCancelled => [.cancelled]
  | none, .other _ => [.failed]

/-- `resolve_impl`. -/
def resolveImpl (env : Env T F V K) (obj : FunctionRequestImpl T F V) : Effect T F V :=
  if obj.props.impl.level.isUncached ∨ ¬ env.supportCaching then { phase := .direct obj none }
  else if obj.props.impl.level.isValueBased then
    { phase := .flattening, subTasks := some (.sync obj.args) }
  else { phase := .lookup obj }

/-- The second half of `make_flattened_clone`. -/
def finishClone (obj : FunctionRequestImpl T F V) : Except AsyncExn (List V) → Effect T F V
  | .error e => { phase := .threw e }
  | .ok vs =>
      match obj.makeFlattenedClone vs with
      | .ok clone => { phase := .lookup clone }
      | .error e => { phase := .threw (.other e) }

/-- `resolve_async`, up to the point where the arguments are awaited. -/
def resolveAsync [DecidableEq T] (obj : FunctionRequestImpl T F V) (task : Option ℕ) :
    Effect T F V :=
  match obj.containment, obj.normalized with
  | none, some v =>
      { phase := leaveDirect obj task (.ok v), produces := true, statuses := [.finished] }
  | _, _ =>
      { phase := .subsRunning obj task
        subTasks := some (.async obj.args)
        statuses := [.subsRunning] }

/-- The arguments are there. -/
def runSelf (obj : FunctionRequestImpl T F V) (task : Option ℕ) :
    Except AsyncExn (List V) → Effect T F V
  | .error e =>
      { phase := leaveDirect obj task (.error e), statuses := errorStatuses obj e }
  | .ok _ => { phase := .selfRunning obj task, statuses := [.selfRunning] }

/-- The awaited task has ended. -/
def finishCached : Except AsyncExn V → Effect T F V
  | .ok v => { phase := .done v, produces := true, cached := true, statuses := [.finished] }
  | .error e => { phase := .threw e }

namespace System

variable [DecidableEq T] [DecidableEq K]

/-- The next step of the coroutine at a position of a resolution: what it does itself, and the
memory cache after it. -/
def effect (env : Env T F V K) (s : System T F V K) (t : ℕ) (p : Position) (input : Input V) :
    Option (Effect T F V × MemoryCache K V) :=
  let x := s.resolution t
  match (x.activity p).phase, input with
  | .entered, .go => (x.object p).map fun obj => (resolveImpl env obj, s.cache)
  | .flattening, .go =>
      (x.object p).bind fun obj => (x.results p obj.args 0).map fun res =>
        (finishClone obj res, s.cache)
  | .lookup obj, .go =>
      match s.cache.acquire (env.capturedId obj) t p with
      | (cache, none) => some ({ phase := .acquired obj }, cache)
      | (cache, some n) =>
          if obj.props.impl.level.isMemoryCached then
            some ({ phase := .direct obj (some n) }, cache)
          else some ({ phase := .secondary obj n }, cache)
  | .secondary obj n, .go => some ({ phase := .direct obj (some n) }, s.cache)
  | .secondary obj n, .found v => some ({ phase := .recording obj n (.ok v) }, s.cache)
  | .secondary obj n, .fails e =>
      some ({ phase := .recording obj n (.error (.other e)) }, s.cache)
  | .direct obj task, .go => some (resolveAsync obj task, s.cache)
  | .subsRunning obj task, .go =>
      (x.results p obj.args 0).map fun res => (runSelf obj task res, s.cache)
  | .selfRunning obj task, .returns v =>
      some ({ phase := .returned obj task v, produces := true }, s.cache)
  | .selfRunning obj task, .throws e =>
      -- a function learns of a cancellation through its context
      if e = .asyncCancelled ∧ ¬ x.cancelled then none
      else
        some ({ phase := leaveDirect obj task (.error e), statuses := errorStatuses obj e },
          s.cache)
  | .selfRunning obj task, .cancelDelegate =>
      if obj.containment.isSome ∧ x.cancelled then
        some ({ phase := .selfRunning obj task, statuses := [.cancelled] }, s.cache)
      else none
  | .returned obj task v, .go =>
      some ({ phase := leaveDirect obj task (.ok v), statuses := [.finished] }, s.cache)
  | .returned obj task _, .fails e =>
      -- the response of a contained process is not deserialized yet
      if obj.containment.isSome then
        some ({ phase := leaveDirect obj task (.error (.other e)), statuses := [.finished] },
          s.cache)
      else none
  | .recording obj n result, .go =>
      some ({ phase := .acquired obj }, s.cache.record (env.capturedId obj) n result)
  | .recording obj n (.ok _), .fails e =>
      if obj.props.impl.level.isMemoryCached then none
      else
        some ({ phase := .acquired obj },
          s.cache.record (env.capturedId obj) n (.error (.other e)))
  | .acquired obj, .go =>
      (s.cache.records (env.capturedId obj)).map fun r =>
        ({ phase := .awaiting obj r.task }, s.cache)
  | .awaiting obj n, .go =>
      (s.cache.tasks n).outcome.map fun result =>
        (finishCached result, s.cache.release (env.capturedId obj))
  | .threw e, .go =>
      (x.object p).map fun obj =>
        if e = .other .httpRequestFailure ∧ (x.activity p).attempt < obj.props.retries then
          ({ phase := .entered, retries := true }, s.cache)
        else ({ phase := .failed e }, s.cache)
  | .threw e, .fails e' =>
      (x.object p).bind fun obj =>
        if e = .other .httpRequestFailure ∧ (x.activity p).attempt < obj.props.retries then
          some ({ phase := .failed (.other e') }, s.cache)
        else none
  | _, _ => none

end System

inductive Event (T F V K : Type)
  /-- `resolve_request` is called with a new context. -/
  | resolve (r : FunctionRequest T F V) (usingResult : Bool)
  /-- `request_cancellation` on a context of a resolution. -/
  | cancel (t : ℕ)
  | advance (t : ℕ) (p : Position) (input : Input V)
  /-- An unused record is evicted. -/
  | evict (key : K)

def System.step [DecidableEq T] [DecidableEq K] (env : Env T F V K) (s : System T F V K) :
    Event T F V K → Option (System T F V K)
  | .resolve r usingResult =>
      if isCall r then
        some { s with
          resolution := Function.update s.resolution s.numResolutions
            { request := r
              usingResult
              activity := Function.update (fun _ => {}) [] { phase := .entered } }
          numResolutions := s.numResolutions + 1 }
      else none
  | .cancel t =>
      some { s with
        resolution := Function.update s.resolution t { s.resolution t with cancelled := true } }
  | .advance t p input =>
      (s.effect env t p input).map fun r =>
        { s with
          resolution := Function.update s.resolution t ((s.resolution t).apply p r.1)
          cache := r.2 }
  | .evict key =>
      (s.cache.records key).bind fun r =>
        if r.refCount = 0 then
          some { s with
            cache := { s.cache with records := Function.update s.cache.records key none } }
        else none

/-! ## Statuses -/

mutual
theorem ContextTree.updateStatus_cases (st : AsyncStatus) : ∀ (tree : ContextTree) (c : Position)
    (status : Position → AsyncStatus) (c' : Position),
    tree.updateStatus st c status c' = status c' ∨ c <+: c'
      ∧ ((tree.updateStatus st c status c').almostFinished = true → st.almostFinished = true)
  | .node _ subs, c, status, c' => by
      rw [updateStatus]
      by_cases hc : c' = c
      · subst hc
        rw [Function.update_self]
        exact .inr ⟨List.prefix_rfl, id⟩
      · rw [Function.update_of_ne hc]
        split
        · rename_i hst
          rcases finishSubs_cases subs c 0 status c' with h | h
          · exact .inl h
          · exact .inr ⟨h, fun _ => hst.2⟩
        · exact .inl rfl
theorem ContextTree.finishSubs_cases : ∀ (subs : List ContextTree) (c : Position) (i : ℕ)
    (status : Position → AsyncStatus) (c' : Position),
    finishSubs subs c i status c' = status c' ∨ c <+: c'
  | [], _, _, _, _ => .inl rfl
  | sub :: subs, c, i, status, c' => by
      rw [finishSubs]
      rcases finishSubs_cases subs c (i + 1) _ c' with h | h
      · rw [h]
        rcases updateStatus_cases .finished sub (c ++ [i]) status c' with h | ⟨h, -⟩
        · exact .inl h
        · exact .inr ((List.prefix_append c [i]).trans h)
      · exact .inr h
end

namespace Resolution

variable {x : Resolution T F V} {p c : Position}

@[simp] theorem updateStatus_request (st : AsyncStatus) :
    (x.updateStatus c st).request = x.request := by
  unfold updateStatus; split <;> rfl

@[simp] theorem updateStatus_activity (st : AsyncStatus) :
    (x.updateStatus c st).activity = x.activity := by
  unfold updateStatus; split <;> rfl

@[simp] theorem updateStatus_available (st : AsyncStatus) :
    (x.updateStatus c st).available = x.available := by
  unfold updateStatus; split <;> rfl

@[simp] theorem updateStatus_fromCache (st : AsyncStatus) :
    (x.updateStatus c st).fromCache = x.fromCache := by
  unfold updateStatus; split <;> rfl

@[simp] theorem updateStatus_outOfRange (st : AsyncStatus) :
    (x.updateStatus c st).outOfRange = x.outOfRange := by
  unfold updateStatus; split <;> rfl

@[simp] theorem updateStatus_cancelled (st : AsyncStatus) :
    (x.updateStatus c st).cancelled = x.cancelled := by
  unfold updateStatus; split <;> rfl

/-- Only contexts from the given one downwards change, and get finished only if the new status
says so. -/
theorem updateStatus_cases (st : AsyncStatus) (c' : Position) :
    (x.updateStatus c st).status c' = x.status c' ∨ c <+: c'
      ∧ (((x.updateStatus c st).status c').almostFinished = true → st.almostFinished = true) := by
  unfold updateStatus
  split
  · exact .inl rfl
  · rename_i tree htree
    have hfirst := tree.updateStatus_cases st c x.status c'
    dsimp only
    split
    · have hsecond := tree.updateStatus_cases
        (if x.usingResult = true ∧ st = .finished then .awaitingResult else st) c
        (tree.updateStatus st c x.status) c'
      rcases hsecond with h | ⟨h, halmost⟩
      · rw [h]
        exact hfirst
      · refine .inr ⟨h, fun hst => ?_⟩
        have := halmost hst
        split at this
        · rename_i hfinished
          rw [hfinished.2]
          rfl
        · exact this
    · exact hfirst

theorem foldl_updateStatus_frame (sts : List AsyncStatus) :
    (sts.foldl (·.updateStatus c ·) x).request = x.request
      ∧ (sts.foldl (·.updateStatus c ·) x).activity = x.activity
      ∧ (sts.foldl (·.updateStatus c ·) x).available = x.available
      ∧ (sts.foldl (·.updateStatus c ·) x).fromCache = x.fromCache
      ∧ (sts.foldl (·.updateStatus c ·) x).outOfRange = x.outOfRange
      ∧ (sts.foldl (·.updateStatus c ·) x).cancelled = x.cancelled := by
  induction sts generalizing x with
  | nil => simp
  | cons st sts ih => simpa using ih (x := x.updateStatus c st)

theorem foldl_updateStatus_cases (sts : List AsyncStatus) (c' : Position) :
    (sts.foldl (·.updateStatus c ·) x).status c' = x.status c' ∨ c <+: c'
      ∧ (((sts.foldl (·.updateStatus c ·) x).status c').almostFinished = true →
        ∃ st ∈ sts, st.almostFinished = true) := by
  induction sts generalizing x with
  | nil => exact .inl rfl
  | cons st sts ih =>
      rw [List.foldl_cons]
      rcases ih (x := x.updateStatus c st) with h | ⟨h, halmost⟩
      · rw [h]
        rcases x.updateStatus_cases (c := c) st c' with h' | ⟨h', halmost⟩
        · exact .inl h'
        · exact .inr ⟨h', fun hst => ⟨st, List.mem_cons_self, halmost hst⟩⟩
      · refine .inr ⟨h, fun hst => ?_⟩
        obtain ⟨st', hmem, hst'⟩ := halmost hst
        exact ⟨st', List.mem_cons_of_mem _ hmem, hst'⟩

end Resolution

/-! ## The results of the arguments -/

namespace Resolution

variable {x : Resolution T F V} {p : Position} {a : FunctionRequest T F V}
  {as : List (FunctionRequest T F V)} {i : ℕ}

theorem results_cons {res : Except AsyncExn (List V)} (h : x.results p (a :: as) i = some res) :
    ∃ r rs, x.resultOf p i a = some r ∧ x.results p as (i + 1) = some rs
      ∧ res = r.bind fun v => rs.map (v :: ·) := by
  simp only [results, Option.bind_eq_some_iff, Option.map_eq_some_iff] at h
  obtain ⟨r, hr, rs, hrs, h⟩ := h
  exact ⟨r, rs, hr, hrs, h.symm⟩

theorem results_cons_ok {vs : List V} (h : x.results p (a :: as) i = some (.ok vs)) :
    ∃ v vs', x.resultOf p i a = some (.ok v) ∧ x.results p as (i + 1) = some (.ok vs')
      ∧ vs = v :: vs' := by
  obtain ⟨r, rs, hr, hrs, h⟩ := results_cons h
  cases r with
  | error e => cases h
  | ok v =>
      cases rs with
      | error e => cases h
      | ok vs' => exact ⟨v, vs', hr, hrs, Except.ok.inj h⟩

/-- The coroutine for a request has ended with its result. -/
theorem resultOf_call {r : Except AsyncExn V} (h : x.resultOf p i a = some r)
    (hcall : isCall a = true) :
    (∃ v, r = .ok v ∧ (x.activity (p ++ [i])).phase = .done v)
      ∨ ∃ e, r = .error e ∧ (x.activity (p ++ [i])).phase = .failed e := by
  cases a with
  | value type v => cases hcall
  | call props f c args =>
      simp only [resultOf] at h
      split at h
      · rename_i v hdone
        exact .inl ⟨v, (Option.some.inj h).symm, hdone⟩
      · rename_i e hfailed
        exact .inr ⟨e, (Option.some.inj h).symm, hfailed⟩
      · cases h

end Resolution

/-! ## What a step changes -/

/-- `resolve_impl` decides where to go on. -/
theorem resolveImpl_cases (env : Env T F V K) (obj : FunctionRequestImpl T F V) :
    resolveImpl env obj = { phase := .direct obj none }
      ∨ resolveImpl env obj = { phase := .flattening, subTasks := some (.sync obj.args) }
      ∨ resolveImpl env obj = { phase := .lookup obj } := by
  unfold resolveImpl
  split
  · exact .inl rfl
  · split
    · exact .inr (.inl rfl)
    · exact .inr (.inr rfl)

/-- There is a clone to look for, or none. -/
theorem finishClone_cases (obj : FunctionRequestImpl T F V) (res : Except AsyncExn (List V)) :
    (∃ clone, finishClone obj res = { phase := .lookup clone })
      ∨ ∃ e, finishClone obj res = { phase := .threw e }
        ∧ (e = .asyncCancelled → res = .error e) := by
  cases res with
  | error e => exact .inr ⟨e, rfl, fun _ => rfl⟩
  | ok vs =>
      rw [finishClone]
      split
      · rename_i clone _
        exact .inl ⟨clone, rfl⟩
      · rename_i e _
        exact .inr ⟨.other e, rfl, by simp⟩

section
variable [DecidableEq T] [DecidableEq K]

/-- What the steps of a coroutine do. -/
inductive Move (env : Env T F V K) (s : System T F V K) (t : ℕ) (p : Position) :
    Effect T F V → MemoryCache K V → Prop
  | resolveImpl (obj : FunctionRequestImpl T F V)
      (hphase : ((s.resolution t).activity p).phase = .entered)
      (hobject : (s.resolution t).object p = some obj) :
      Move env s t p (resolveImpl env obj) s.cache
  | finishClone (obj : FunctionRequestImpl T F V) (res : Except AsyncExn (List V))
      (hphase : ((s.resolution t).activity p).phase = .flattening)
      (hobject : (s.resolution t).object p = some obj)
      (hres : (s.resolution t).results p obj.args 0 = some res) :
      Move env s t p (finishClone obj res) s.cache
  /-- There is a record already. -/
  | join (obj : FunctionRequestImpl T F V) (cache : MemoryCache K V)
      (hphase : ((s.resolution t).activity p).phase = .lookup obj)
      (hcache : s.cache.acquire (env.capturedId obj) t p = (cache, none)) :
      Move env s t p { phase := .acquired obj } cache
  | create (obj : FunctionRequestImpl T F V) (cache : MemoryCache K V) (n : ℕ) (phase : Phase T F V)
      (hphase : ((s.resolution t).activity p).phase = .lookup obj)
      (hcache : s.cache.acquire (env.capturedId obj) t p = (cache, some n))
      (hnext : phase = .direct obj (some n) ∨ phase = .secondary obj n) :
      Move env s t p { phase } cache
  | secondaryMiss (obj : FunctionRequestImpl T F V) (n : ℕ)
      (hphase : ((s.resolution t).activity p).phase = .secondary obj n) :
      Move env s t p { phase := .direct obj (some n) } s.cache
  | secondaryEnd (obj : FunctionRequestImpl T F V) (n : ℕ) (result : Except AsyncExn V)
      (hphase : ((s.resolution t).activity p).phase = .secondary obj n)
      (hresult : result ≠ .error .asyncCancelled) :
      Move env s t p { phase := .recording obj n result } s.cache
  | resolveAsync (obj : FunctionRequestImpl T F V) (task : Option ℕ)
      (hphase : ((s.resolution t).activity p).phase = .direct obj task) :
      Move env s t p (resolveAsync obj task) s.cache
  | runSelf (obj : FunctionRequestImpl T F V) (task : Option ℕ) (res : Except AsyncExn (List V))
      (hphase : ((s.resolution t).activity p).phase = .subsRunning obj task)
      (hres : (s.resolution t).results p obj.args 0 = some res) :
      Move env s t p (runSelf obj task res) s.cache
  | returns (obj : FunctionRequestImpl T F V) (task : Option ℕ) (v : V)
      (hphase : ((s.resolution t).activity p).phase = .selfRunning obj task) :
      Move env s t p { phase := .returned obj task v, produces := true } s.cache
  | throws (obj : FunctionRequestImpl T F V) (task : Option ℕ) (e : AsyncExn)
      (hphase : ((s.resolution t).activity p).phase = .selfRunning obj task)
      (hcancelled : e = .asyncCancelled → (s.resolution t).cancelled = true) :
      Move env s t p
        { phase := leaveDirect obj task (.error e), statuses := errorStatuses obj e } s.cache
  | cancelDelegate (obj : FunctionRequestImpl T F V) (task : Option ℕ)
      (hphase : ((s.resolution t).activity p).phase = .selfRunning obj task) :
      Move env s t p { phase := .selfRunning obj task, statuses := [.cancelled] } s.cache
  | leave (obj : FunctionRequestImpl T F V) (task : Option ℕ) (v : V) (result : Except AsyncExn V)
      (hphase : ((s.resolution t).activity p).phase = .returned obj task v)
      (hresult : result ≠ .error .asyncCancelled) :
      Move env s t p { phase := leaveDirect obj task result, statuses := [.finished] } s.cache
  | record (obj : FunctionRequestImpl T F V) (n : ℕ) (result result' : Except AsyncExn V)
      (hphase : ((s.resolution t).activity p).phase = .recording obj n result)
      (hresult : result' = result ∨ result' ≠ .error .asyncCancelled) :
      Move env s t p { phase := .acquired obj } (s.cache.record (env.capturedId obj) n result')
  | await (obj : FunctionRequestImpl T F V) (r : Record)
      (hphase : ((s.resolution t).activity p).phase = .acquired obj)
      (hrecord : s.cache.records (env.capturedId obj) = some r) :
      Move env s t p { phase := .awaiting obj r.task } s.cache
  | finishCached (obj : FunctionRequestImpl T F V) (n : ℕ) (result : Except AsyncExn V)
      (hphase : ((s.resolution t).activity p).phase = .awaiting obj n)
      (houtcome : (s.cache.tasks n).outcome = some result) :
      Move env s t p (finishCached result) (s.cache.release (env.capturedId obj))
  | retry (e : AsyncExn) (hphase : ((s.resolution t).activity p).phase = .threw e) :
      Move env s t p { phase := .entered, retries := true } s.cache
  | giveUp (e e' : AsyncExn) (hphase : ((s.resolution t).activity p).phase = .threw e)
      (he : e' = e ∨ e' ≠ .asyncCancelled) :
      Move env s t p { phase := .failed e' } s.cache

theorem effect_cases {env : Env T F V K} {s : System T F V K} {t : ℕ} {p : Position}
    {input : Input V} {r : Effect T F V × MemoryCache K V}
    (h : s.effect env t p input = some r) : Move env s t p r.1 r.2 := by
  unfold System.effect at h
  dsimp only at h
  split at h
  · rename_i hphase
    obtain ⟨obj, hobject, rfl⟩ := Option.map_eq_some_iff.mp h
    exact .resolveImpl obj hphase hobject
  · rename_i hphase
    obtain ⟨obj, hobject, h⟩ := Option.bind_eq_some_iff.mp h
    obtain ⟨res, hres, rfl⟩ := Option.map_eq_some_iff.mp h
    exact .finishClone obj res hphase hobject hres
  · rename_i obj hphase
    split at h
    · rename_i cache hcache
      obtain rfl := Option.some.inj h
      exact .join obj cache hphase hcache
    · rename_i cache n hcache
      split at h
      · obtain rfl := Option.some.inj h
        exact .create obj cache n _ hphase hcache (.inl rfl)
      · obtain rfl := Option.some.inj h
        exact .create obj cache n _ hphase hcache (.inr rfl)
  · rename_i obj n hphase
    obtain rfl := Option.some.inj h
    exact .secondaryMiss obj n hphase
  · rename_i obj n v hphase
    obtain rfl := Option.some.inj h
    exact .secondaryEnd obj n (.ok v) hphase (by simp)
  · rename_i obj n e hphase
    obtain rfl := Option.some.inj h
    exact .secondaryEnd obj n (.error (.other e)) hphase (by simp)
  · rename_i obj task hphase
    obtain rfl := Option.some.inj h
    exact .resolveAsync obj task hphase
  · rename_i obj task hphase
    obtain ⟨res, hres, rfl⟩ := Option.map_eq_some_iff.mp h
    exact .runSelf obj task res hphase hres
  · rename_i obj task v hphase
    obtain rfl := Option.some.inj h
    exact .returns obj task v hphase
  · rename_i obj task e hphase
    split at h
    · cases h
    · rename_i hcancelled
      obtain rfl := Option.some.inj h
      exact .throws obj task e hphase fun he => by simpa [he] using hcancelled
  · rename_i obj task hphase
    split at h
    · obtain rfl := Option.some.inj h
      exact .cancelDelegate obj task hphase
    · cases h
  · rename_i obj task v hphase
    obtain rfl := Option.some.inj h
    exact .leave obj task v (.ok v) hphase (by simp)
  · rename_i obj task v e hphase
    split at h
    · obtain rfl := Option.some.inj h
      exact .leave obj task v (.error (.other e)) hphase (by simp)
    · cases h
  · rename_i obj n result hphase
    obtain rfl := Option.some.inj h
    exact .record obj n result result hphase (.inl rfl)
  · rename_i obj n v e hphase
    split at h
    · cases h
    · obtain rfl := Option.some.inj h
      exact .record obj n (.ok v) (.error (.other e)) hphase (.inr (by simp))
  · rename_i obj hphase
    obtain ⟨r, hrecord, rfl⟩ := Option.map_eq_some_iff.mp h
    exact .await obj r hphase hrecord
  · rename_i obj n hphase
    obtain ⟨result, houtcome, rfl⟩ := Option.map_eq_some_iff.mp h
    exact .finishCached obj n result hphase houtcome
  · rename_i e hphase
    obtain ⟨obj, -, rfl⟩ := Option.map_eq_some_iff.mp h
    split
    · exact .retry e hphase
    · exact .giveUp e e hphase (.inl rfl)
  · rename_i e e' hphase
    obtain ⟨obj, -, h⟩ := Option.bind_eq_some_iff.mp h
    split at h
    · obtain rfl := Option.some.inj h
      exact .giveUp e (.other e') hphase (.inr (by simp))
    · cases h
  · cases h

variable {env : Env T F V K} {s : System T F V K} {t : ℕ} {p : Position} {e : Effect T F V}
  {cache : MemoryCache K V}

theorem ne_idle_of_move (h : Move env s t p e cache) :
    ((s.resolution t).activity p).phase ≠ .idle := by
  cases h <;> simp_all

/-- The steps that access subcontexts leave the cache alone. -/
theorem cache_eq_of_move (h : Move env s t p e cache) (hsubs : 0 < e.neededSubs) :
    cache = s.cache := by
  cases h with
  | join | create | record | finishCached _ _ result =>
      first
        | cases result <;> simp [Effect.neededSubs, finishCached] at hsubs
        | simp [Effect.neededSubs] at hsubs
  | _ => rfl

end

/-- The arguments that get a coroutine. -/
def SubTasks.args : SubTasks T F V → List (FunctionRequest T F V)
  | sync as | async as => as

/-- The context for an argument of the request whose context is given. -/
def SubTasks.ctx (c : Position) (i : ℕ) : SubTasks T F V → Position
  | sync _ => c
  | async _ => c ++ [i]

namespace Resolution

variable {x : Resolution T F V} {p : Position}

theorem start_cases (ctx : ℕ → Position) (p : Position) (as : List (FunctionRequest T F V)) (i : ℕ)
    (activity : Position → Activity T F V) (q : Position) :
    start ctx p as i activity q = activity q ∨ ∃ j a, as[j]? = some a ∧ isCall a = true
      ∧ q = p ++ [i + j]
      ∧ start ctx p as i activity q = { ctx := ctx (i + j), phase := .entered } := by
  induction as generalizing i activity with
  | nil => exact .inl rfl
  | cons a as ih =>
      rw [start]
      rcases ih (i + 1) (if isCall a = true then
        Function.update activity (p ++ [i]) { ctx := ctx i, phase := .entered } else activity)
        with h | ⟨j, b, hb, hcall, hq, h⟩
      · rw [h]
        split
        · rename_i hcall
          by_cases hq : q = p ++ [i]
          · subst hq
            rw [Function.update_self]
            exact .inr ⟨0, a, rfl, hcall, rfl, rfl⟩
          · rw [Function.update_of_ne hq]
            exact .inl rfl
        · exact .inl rfl
      · rw [show i + 1 + j = i + (j + 1) by omega] at hq h
        exact .inr ⟨j + 1, b, hb, hcall, hq, h⟩

theorem makeSubTasks_cases (ts : SubTasks T F V) (q : Position) :
    (x.makeSubTasks p ts).activity q = x.activity q ∨ ∃ i a, ts.args[i]? = some a
      ∧ isCall a = true ∧ q = p ++ [i] ∧ (x.makeSubTasks p ts).activity q
        = { ctx := ts.ctx (x.activity p).ctx i, phase := .entered } := by
  cases ts with
  | sync as =>
      simpa [makeSubTasks, SubTasks.ctx, SubTasks.args] using
        start_cases (fun _ => (x.activity p).ctx) p as 0 x.activity q
  | async as =>
      simpa [makeSubTasks, SubTasks.ctx, SubTasks.args] using
        start_cases (fun i => (x.activity p).ctx ++ [i]) p as 0 x.activity q

theorem makeSubTasks_frame (ts : SubTasks T F V) :
    (x.makeSubTasks p ts).request = x.request ∧ (x.makeSubTasks p ts).status = x.status
      ∧ (x.makeSubTasks p ts).available = x.available
      ∧ (x.makeSubTasks p ts).fromCache = x.fromCache
      ∧ (x.makeSubTasks p ts).outOfRange = x.outOfRange
      ∧ (x.makeSubTasks p ts).cancelled = x.cancelled := by
  cases ts <;> exact ⟨rfl, rfl, rfl, rfl, rfl, rfl⟩

/-- `proceed` without the statuses. -/
theorem proceed_eq (e : Effect T F V) : ∃ y : Resolution T F V,
    x.proceed p e = e.statuses.foldl (·.updateStatus (x.activity p).ctx ·) y
      ∧ y.request = x.request ∧ y.status = x.status ∧ y.cancelled = x.cancelled
      ∧ y.outOfRange = x.outOfRange
      ∧ y.available = Function.update x.available p (x.available p || e.produces)
      ∧ y.fromCache
        = Function.update x.fromCache p (x.fromCache p || (e.cached && !x.available p))
      ∧ (y.activity p).ctx = (x.activity p).ctx ∧ (y.activity p).phase = e.phase
      ∧ ∀ q, q ≠ p → y.activity q = x.activity q ∨ ∃ ts i a, e.subTasks = some ts
        ∧ ts.args[i]? = some a ∧ isCall a = true ∧ q = p ++ [i]
        ∧ y.activity q = { ctx := ts.ctx (x.activity p).ctx i, phase := .entered } := by
  unfold proceed
  cases hts : e.subTasks with
  | none =>
      refine ⟨_, rfl, rfl, rfl, rfl, rfl, rfl, rfl, by simp, by simp, fun q hq => .inl ?_⟩
      exact Function.update_of_ne hq _ _
  | some ts =>
      obtain ⟨hrequest, hstatus, havailable, hfrom, hrange, hcancelled⟩ :=
        x.makeSubTasks_frame (p := p) ts
      refine ⟨_, rfl, hrequest, hstatus, hcancelled, hrange, ?_, ?_, by simp, by simp, ?_⟩
      · simp only [havailable]
      · simp only [hfrom, havailable]
      · intro q hq
        simp only [Function.update_of_ne hq]
        rcases x.makeSubTasks_cases (p := p) ts q with h | ⟨i, a, h⟩
        · exact .inl h
        · exact .inr ⟨ts, i, a, rfl, h⟩

/-- A step keeps the request, and whether the resolution is cancelled. -/
theorem proceed_request (e : Effect T F V) : (x.proceed p e).request = x.request := by
  obtain ⟨y, h, hrequest, -⟩ := x.proceed_eq (p := p) e
  rw [h, (foldl_updateStatus_frame _).1, hrequest]

theorem proceed_cancelled (e : Effect T F V) : (x.proceed p e).cancelled = x.cancelled := by
  obtain ⟨y, h, -, -, hcancelled, -⟩ := x.proceed_eq (p := p) e
  rw [h, (foldl_updateStatus_frame _).2.2.2.2.2, hcancelled]

theorem proceed_outOfRange (e : Effect T F V) :
    (x.proceed p e).outOfRange = x.outOfRange := by
  obtain ⟨y, h, -, -, -, hrange, -⟩ := x.proceed_eq (p := p) e
  rw [h, (foldl_updateStatus_frame _).2.2.2.2.1, hrange]

theorem proceed_available (e : Effect T F V) : (x.proceed p e).available
    = Function.update x.available p (x.available p || e.produces) := by
  obtain ⟨y, h, -, -, -, -, havailable, -⟩ := x.proceed_eq (p := p) e
  rw [h, (foldl_updateStatus_frame _).2.2.1, havailable]

theorem proceed_fromCache (e : Effect T F V) : (x.proceed p e).fromCache
    = Function.update x.fromCache p (x.fromCache p || (e.cached && !x.available p)) := by
  obtain ⟨y, h, -, -, -, -, -, hfrom, -⟩ := x.proceed_eq (p := p) e
  rw [h, (foldl_updateStatus_frame _).2.2.2.1, hfrom]

theorem proceed_activity_self (e : Effect T F V) :
    ((x.proceed p e).activity p).ctx = (x.activity p).ctx
      ∧ ((x.proceed p e).activity p).phase = e.phase := by
  obtain ⟨y, h, -, -, -, -, -, -, hctx, hphase, -⟩ := x.proceed_eq (p := p) e
  rw [h, (foldl_updateStatus_frame _).2.1]
  exact ⟨hctx, hphase⟩

/-- The other coroutines stay where they are, or are created. -/
theorem proceed_activity_cases (e : Effect T F V) {q : Position} (hq : q ≠ p) :
    (x.proceed p e).activity q = x.activity q ∨ ∃ ts i a, e.subTasks = some ts
      ∧ ts.args[i]? = some a ∧ isCall a = true ∧ q = p ++ [i]
      ∧ (x.proceed p e).activity q
        = { ctx := ts.ctx (x.activity p).ctx i, phase := .entered } := by
  obtain ⟨y, h, -, -, -, -, -, -, -, -, hactivity⟩ := x.proceed_eq (p := p) e
  rw [h, (foldl_updateStatus_frame _).2.1]
  exact hactivity q hq

/-- The statuses change from the context of the coroutine downwards. -/
theorem proceed_status_cases (e : Effect T F V) (c : Position) :
    (x.proceed p e).status c = x.status c ∨ (x.activity p).ctx <+: c
      ∧ (((x.proceed p e).status c).almostFinished = true →
        ∃ st ∈ e.statuses, st.almostFinished = true) := by
  obtain ⟨y, h, -, hstatus, -⟩ := x.proceed_eq (p := p) e
  rw [h, ← hstatus]
  exact foldl_updateStatus_cases e.statuses c

theorem apply_request (e : Effect T F V) : (x.apply p e).request = x.request := by
  unfold apply
  split
  · exact proceed_request e
  · rfl

theorem apply_cancelled (e : Effect T F V) : (x.apply p e).cancelled = x.cancelled := by
  unfold apply
  split
  · exact proceed_cancelled e
  · rfl

/-- A coroutine goes on to the next phase, stays where it is, or is created.  It cannot go on
only if it lacks subcontexts. -/
theorem apply_phase_cases (e : Effect T F V) (q : Position) :
    (q = p ∧ ((x.apply p e).activity q).phase = e.phase)
      ∨ (((x.apply p e).activity q).phase = (x.activity q).phase ∧ (q = p → 0 < e.neededSubs))
      ∨ ((x.apply p e).activity q).phase = .entered := by
  unfold apply
  split
  · by_cases hq : q = p
    · subst hq
      exact .inl ⟨rfl, (proceed_activity_self e).2⟩
    · rcases proceed_activity_cases e hq with h | ⟨ts, i, a, -, -, -, -, h⟩
      · exact .inr (.inl ⟨by rw [h], fun hp => absurd hp hq⟩)
      · exact .inr (.inr (by rw [h]))
  · exact .inr (.inl ⟨rfl, fun _ => by omega⟩)

end Resolution

end Cradle.Async
