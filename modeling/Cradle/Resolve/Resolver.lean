import Cradle.Caching.Immutable
import Cradle.Lib.Coro
import Cradle.Resolve.Request

/-!
# Resolving requests

`resolve_request` on a synchronous local context, without a lock.  An uncached request
is resolved directly: its arguments first, then the call.  A cached one goes through
the memory cache, and a fully cached one on a memory cache miss also through the
secondary cache.  A value-based one is first replaced by a request on the values of
its arguments.

Coroutines run to their end one after the other, so a record that is found in the
loading state is being loaded by a caller, which in turn waits for this coroutine.
-/

namespace Cradle.Resolve

open Caching

/-! ## Resources -/

/-- The order in which the arguments of a request are resolved. -/
inductive ArgOrder
  /-- One by one up to the first exception. -/
  | leftToRight
  | rightToLeft
  /-- `when_all`: all of them are resolved before an exception is thrown. -/
  | whenAll
  deriving DecidableEq, Repr

/-- What the resolver is given.  The secondary cache may have nothing to return for a
key that was written: `readable n` says whether the `n`-th read finds what is there. -/
structure Resources {T V : Type} (typeOf : V → T) (D H B : Type) where
  supportCaching : Bool
  /-- The order of the arguments in a call, which C++ leaves open. -/
  callOrder : ArgOrder
  digestOf : V → D
  deepSizeof : V → ℕ
  getUniqueString : RequestId T V → H
  allowBlobFiles : Bool
  serializeValue : V → Bool → B
  deserializeValue : T → B → Except Exn V
  readable : ℕ → Bool

/-- The secondary cache: what was last written under each key and is not evicted. -/
structure SecondaryCache (H B : Type) where
  entries : H → Option B := fun _ => none
  reads : ℕ := 0

structure World (T V D H B : Type) where
  cache : ImmutableCache (RequestId T V) D V
  secondary : SecondaryCache H B := {}

section
variable {T V D H B : Type} [DecidableEq T] [DecidableEq V] [DecidableEq D] [DecidableEq H]
  {typeOf : V → T} (res : Resources typeOf D H B)

abbrev Resolution (T V D H B α : Type) := Coro (World T V D H B) Exn α

/-! ## The secondary cache -/

def SecondaryCache.read (key : H) : Resolution T V D H B (Option B) := fun w =>
  (.value (if res.readable w.secondary.reads then w.secondary.entries key else none),
    { w with secondary := { w.secondary with reads := w.secondary.reads + 1 } })

def SecondaryCache.write (key : H) (b : B) : Resolution T V D H B Unit := fun w =>
  (.value (), { w with secondary :=
    { w.secondary with entries := Function.update w.secondary.entries key (some b) } })

def secondaryCachedBlob (key : RequestId T V) (createTask : Resolution T V D H B B) :
    Resolution T V D H B B := do
  let key := res.getUniqueString key
  match ← SecondaryCache.read res key with
  | some blob => return blob
  | none =>
      let blob ← createTask
      SecondaryCache.write key blob
      return blob

/-- `resolve_secondary_cached`, for both kinds of caching; `direct` is
`resolve_request_direct` for the request. -/
def resolveSecondaryCached (impl : ImplType T) (key : RequestId T V)
    (direct : Resolution T V D H B V) : Resolution T V D H B V :=
  if impl.level.isMemoryCached then direct
  else do
    let blob ← secondaryCachedBlob res key do
      return res.serializeValue (← direct) res.allowBlobFiles
    Coro.ofExcept (res.deserializeValue impl.valueType blob)

/-! ## The memory cache -/

/-- Construct a cache pointer; tells whether the record is given a task. -/
def acquirePtr (key : RequestId T V) : Resolution T V D H B Bool := fun w =>
  (.value (w.cache.createsTask key), { w with cache := w.cache.acquireCacheRecord key })

/-- Destroy it. -/
def releasePtr (key : RequestId T V) (w : World T V D H B) : World T V D H B :=
  { w with cache := w.cache.delRefFromCacheRecord key }

def recordValue (key : RequestId T V) (v : V) : Resolution T V D H B Unit := fun w =>
  (.value (), { w with
    cache := w.cache.recordValueUntyped key (res.digestOf v) v (res.deepSizeof v) })

def recordFailure (key : RequestId T V) (w : World T V D H B) : World T V D H B :=
  { w with cache := w.cache.recordFailure key }

/-- `get_value`: the cast to the value type of the pointer is unchecked. -/
def getValue (typeOf : V → T) (t : T) (key : RequestId T V) : Resolution T V D H B V := fun w =>
  match w.cache.getValue key with
  | some v => (if typeOf v = t then .value v else .stuck, w)
  | none => (.stuck, w)

/-- Await a task that another coroutine runs: it has ended if the record is ready, and
waits for this one if the record is loading. -/
def awaitTask (key : RequestId T V) : Resolution T V D H B Unit := fun w =>
  (if w.cache.stateOf key = some .ready then .value () else .stuck, w)

def resolveRequestOnMemoryCacheMiss (impl : ImplType T) (key : RequestId T V)
    (direct : Resolution T V D H B V) : Resolution T V D H B Unit :=
  Coro.onException (resolveSecondaryCached res impl key direct >>= recordValue res key)
    (recordFailure key)

/-- Await the task of the record: the one it has just been given, or an older one. -/
def ensureValueTask (createsTask : Bool) (impl : ImplType T) (key : RequestId T V)
    (direct : Resolution T V D H B V) : Resolution T V D H B Unit :=
  if createsTask then resolveRequestOnMemoryCacheMiss res impl key direct else awaitTask key

/-- `resolve_request_cached` for composition-based caching. -/
def resolveRequestCached (impl : ImplType T) (key : RequestId T V)
    (direct : Resolution T V D H B V) : Resolution T V D H B V := do
  let createsTask ← acquirePtr key
  Coro.ensuring
    (do
      ensureValueTask res createsTask impl key direct
      getValue typeOf impl.valueType key)
    (releasePtr key)

/-! ## Requests

The definitions are over the properties and the function of a request, the identities
of its arguments, and the way to resolve these. -/

/-- `resolve_request_direct`, which is `resolve_sync_local` here. -/
def resolveRequestDirect (p : RequestProps T) (f : TypedFunction typeOf p.impl.valueType)
    (ids : List (RequestId T V)) (args : ArgOrder → Resolution T V D H B (List V)) :
    Resolution T V D H B V :=
  match normalized typeOf p.impl p.uuid.str ids with
  | some v => return v
  | none => do
      let vs ← args (match p.impl.functionType with
        | .plain => res.callOrder
        | .coro => .whenAll)
      Coro.ofExcept (f.run vs)

/-- `resolve_request_cached` for value-based caching: the arguments of the clone are
values, which resolve to themselves. -/
def resolveRequestFlattened (p : RequestProps T) (f : TypedFunction typeOf p.impl.valueType)
    (args : ArgOrder → Resolution T V D H B (List V)) : Resolution T V D H B V := do
  let vs ← args .whenAll
  let clone := p.flattened (← Coro.ofExcept p.uuid.makeCloneUuid)
  let ids := vs.map .value
  resolveRequestCached res clone.impl (clone.capturedId ids)
    (resolveRequestDirect res clone f ids fun _ => return vs)

def resolveImpl (p : RequestProps T) (f : TypedFunction typeOf p.impl.valueType)
    (ids : List (RequestId T V)) (args : ArgOrder → Resolution T V D H B (List V)) :
    Resolution T V D H B V :=
  if p.impl.level.isUncached ∨ ¬ res.supportCaching then resolveRequestDirect res p f ids args
  else if p.impl.level.isValueBased then resolveRequestFlattened res p f args
  else resolveRequestCached res p.impl (p.capturedId ids) (resolveRequestDirect res p f ids args)

mutual
/-- `resolve_request`. -/
def resolveRequest : Request typeOf → Resolution T V D H B V
  | .value v => return v
  | .call p f args =>
      Coro.retry Exn.isHttpRequestFailure
        (resolveImpl res p f (Request.ids args) fun order => resolveArgs order args) p.retries
def resolveArgs (order : ArgOrder) : List (Request typeOf) → Resolution T V D H B (List V)
  | [] => return []
  | a :: as =>
      match order with
      | .leftToRight => do
          let v ← resolveRequest a
          let vs ← resolveArgs order as
          return v :: vs
      | .rightToLeft => do
          let vs ← resolveArgs order as
          let v ← resolveRequest a
          return v :: vs
      | .whenAll => do
          let (v, vs) ← Coro.whenBoth (resolveRequest a) (resolveArgs order as)
          return v :: vs
end

/-! ## Sessions -/

/-- A call of `resolve_request`, or what may happen to the caches between the calls. -/
inductive Command {T V : Type} (typeOf : V → T) (H : Type)
  | resolve (r : Request typeOf)
  | reduceMemoryCacheSize (desiredSize : ℕ)
  | clearUnusedEntries
  /-- The secondary cache drops the entries that are not kept. -/
  | evictSecondary (keep : H → Bool)

/-- The outcomes of the calls in a session, in order. -/
def runSession : List (Command typeOf H) → World T V D H B → List (Outcome Exn V)
  | [], _ => []
  | .resolve r :: cs, w => (resolveRequest res r w).1 :: runSession cs (resolveRequest res r w).2
  | .reduceMemoryCacheSize n :: cs, w =>
      runSession cs { w with cache := w.cache.reduceMemoryCacheSize n }
  | .clearUnusedEntries :: cs, w => runSession cs { w with cache := w.cache.clearUnusedEntries }
  | .evictSecondary keep :: cs, w =>
      runSession cs { w with secondary := { w.secondary with
        entries := fun key => if keep key then w.secondary.entries key else none } }

/-- The requests of a session. -/
def requests : List (Command typeOf H) → List (Request typeOf)
  | [] => []
  | .resolve r :: cs => r :: requests cs
  | _ :: cs => requests cs

/-- Both caches are empty. -/
def World.init (unusedSizeLimit : ℕ) : World T V D H B := { cache := { unusedSizeLimit } }

end
end Cradle.Resolve
