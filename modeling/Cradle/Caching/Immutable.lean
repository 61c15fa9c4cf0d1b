import Cradle.Lib.Table
import Cradle.Lib.Transition
import Mathlib.Data.Int.Notation
import Mathlib.Tactic.Simps.Basic

/-!
# The immutable memory cache

The cache has two levels.  The action cache (AC) maps keys to records; a record is
kept off the eviction list while a cache pointer or a lock refers to it.  The
content-addressable storage (CAS) maps the digest of a value to the value, shared
by all AC records that computed it.

A C++ reference to an AC record is modelled by the record's key and a
`cas_record*` by the digest of the CAS record: both maps own their records, so a
reference is good exactly as long as the map still has the entry.
-/

namespace Cradle.Caching

variable {K D V : Type*} [DecidableEq K] [DecidableEq D]

/-! ## Records -/

inductive EntryState
  | loading | ready | failed
  deriving DecidableEq, Repr

/-- `immutable_cache_record`.  `evictionListed` says that `eviction_list_iterator`
differs from `end()`. -/
structure CacheRecord (K D : Type*) where
  key : K
  refCount : ℤ := 0
  lockCount : ℤ := 0
  evictionListed : Bool := false
  state : EntryState := .loading
  casRecord : Option D := none
  deriving DecidableEq

/-- `cas_record<Value>`. -/
structure CasRecord (D V : Type*) where
  digest : D
  value : V
  deepSize : ℕ
  refCount : ℤ := 1
  lockCount : ℤ := 0

namespace CasRecord

variable (e : CasRecord D V)

@[simps] def addRef : CasRecord D V := { e with refCount := e.refCount + 1 }
@[simps] def delRef : CasRecord D V := { e with refCount := e.refCount - 1 }
@[simps] def addLock : CasRecord D V := { e with lockCount := e.lockCount + 1 }
@[simps] def delLock : CasRecord D V := { e with lockCount := e.lockCount - 1 }

end CasRecord

/-! ## The content-addressable storage -/

/-- `cas_cache`. -/
structure CasCache (D V : Type*) where
  map : Table (CasRecord.digest : CasRecord D V → D) := ∅
  totalSize : ℤ := 0
  totalLockedSize : ℤ := 0

namespace CasCache

def totalUnlockedSize (c : CasCache D V) : ℤ := c.totalSize - c.totalLockedSize

/-- `ensure_record`: an existing record for the digest is shared, whatever value it
holds; otherwise the record maker is run. -/
def ensureRecord (c : CasCache D V) (d : D) (v : V) (deepSize : ℕ) : CasCache D V :=
  if c.map.Has d then { c with map := c.map.modify d CasRecord.addRef CasRecord.addRef_digest }
  else { c with
    map := c.map.insert { digest := d, value := v, deepSize }
    totalSize := c.totalSize + deepSize }

def delRecord (c : CasCache D V) (e : CasRecord D V) : CasCache D V :=
  { c with map := c.map.erase e.digest, totalSize := c.totalSize - e.deepSize }

/-- `add_lock`: the size becomes locked with the first lock. -/
def addLock (c : CasCache D V) (d : D) : CasCache D V :=
  let map := c.map.modify d CasRecord.addLock CasRecord.addLock_digest
  match map.find? d with
  | some e =>
      if e.lockCount = 1 then
        { c with map, totalLockedSize := c.totalLockedSize + e.deepSize }
      else { c with map }
  | none => { c with map }

/-- `del_lock`: the size becomes unlocked with the last lock. -/
def delLock (c : CasCache D V) (d : D) : CasCache D V :=
  let map := c.map.modify d CasRecord.delLock CasRecord.delLock_digest
  match map.find? d with
  | some e =>
      if e.lockCount = 0 then
        { c with map, totalLockedSize := c.totalLockedSize - e.deepSize }
      else { c with map }
  | none => { c with map }

/-- What the eviction loop does with the CAS record of an evicted AC record: drop
its reference, and delete it with the last one. -/
def dropRef (c : CasCache D V) (d : D) : CasCache D V :=
  let c := { c with map := c.map.modify d CasRecord.delRef CasRecord.delRef_digest }
  match c.map.find? d with
  | some e => if e.refCount = 0 then c.delRecord e else c
  | none => c

end CasCache

/-! ## The action cache -/

/-- `immutable_cache_impl`.  The eviction list holds the keys of its records, the
next one to evict first. -/
structure ImmutableCache (K D V : Type*) where
  unusedSizeLimit : ℕ
  records : Table (CacheRecord.key : CacheRecord K D → K) := ∅
  evictionList : List K := []
  cas : CasCache D V := {}
  hitCount : ℕ := 0
  missCount : ℕ := 0

namespace ImmutableCache

/-- Change the record with the given key. -/
def update (c : ImmutableCache K D V) (k : K) (f : CacheRecord K D → CacheRecord K D)
    (hf : ∀ r, (f r).key = r.key) : ImmutableCache K D V :=
  { c with records := c.records.modify k f hf }

def addToEvictionList (c : ImmutableCache K D V) (k : K) : ImmutableCache K D V :=
  { c with
    evictionList := c.evictionList ++ [k]
    records := c.records.modify k (fun r => { r with evictionListed := true }) fun _ => rfl }

def removeFromEvictionList (c : ImmutableCache K D V) (k : K) : ImmutableCache K D V :=
  { c with
    evictionList := c.evictionList.erase k
    records := c.records.modify k (fun r => { r with evictionListed := false }) fun _ => rfl }

/-- The body of the eviction loop, `k` being the front of the eviction list. -/
def evictFront (c : ImmutableCache K D V) (k : K) : ImmutableCache K D V :=
  { c with
    cas := match (c.records.find? k).bind CacheRecord.casRecord with
      | some d => c.cas.dropRef d
      | none => c.cas
    evictionList := c.evictionList.tail
    records := c.records.erase k }

/-- The eviction loop over what is left of the eviction list. -/
def reduceLoop (desiredSize : ℕ) : List K → ImmutableCache K D V → ImmutableCache K D V
  | [], c => c
  | k :: ks, c =>
      if (desiredSize : ℤ) < c.cas.totalUnlockedSize then
        reduceLoop desiredSize ks (c.evictFront k)
      else c

def reduceMemoryCacheSize (c : ImmutableCache K D V) (desiredSize : ℕ) : ImmutableCache K D V :=
  reduceLoop desiredSize c.evictionList c

def clearUnusedEntries (c : ImmutableCache K D V) : ImmutableCache K D V :=
  c.reduceMemoryCacheSize 0

def addRefToCacheRecord (c : ImmutableCache K D V) (k : K) : ImmutableCache K D V :=
  let c := c.update k (fun r => { r with refCount := r.refCount + 1 }) fun _ => rfl
  match c.records.find? k with
  | some r => if r.evictionListed then c.removeFromEvictionList k else c
  | none => c

/-- The step of `del_ref_from_cache_record` before the eviction loop, for the last
reference. -/
def dropLastRef (c : ImmutableCache K D V) (k : K) : ImmutableCache K D V :=
  (c.update k (fun r => { r with refCount := r.refCount - 1 }) fun _ => rfl).addToEvictionList k

def delRefFromCacheRecord (c : ImmutableCache K D V) (k : K) : ImmutableCache K D V :=
  let c := c.update k (fun r => { r with refCount := r.refCount - 1 }) fun _ => rfl
  match c.records.find? k with
  | some r =>
      if r.refCount = 0 then (c.addToEvictionList k).reduceMemoryCacheSize c.unusedSizeLimit
      else c
  | none => c

def addLockToCacheRecord (c : ImmutableCache K D V) (k : K) : ImmutableCache K D V :=
  let c := c.update k (fun r => { r with lockCount := r.lockCount + 1 }) fun _ => rfl
  match c.records.find? k with
  | some r =>
      match r.casRecord with
      | some d => if r.lockCount = 1 then { c with cas := c.cas.addLock d } else c
      | none => c
  | none => c

def delLockFromCacheRecord (c : ImmutableCache K D V) (k : K) : ImmutableCache K D V :=
  let c := c.update k (fun r => { r with lockCount := r.lockCount - 1 }) fun _ => rfl
  match c.records.find? k with
  | some r =>
      match r.casRecord with
      | some d => if r.lockCount = 0 then { c with cas := c.cas.delLock d } else c
      | none => c
  | none => c

/-- The lookup of `acquire_cache_record`: a hit, or a new record. -/
def findOrCreateRecord (c : ImmutableCache K D V) (k : K) : ImmutableCache K D V :=
  if c.records.Has k then { c with hitCount := c.hitCount + 1 }
  else { c with missCount := c.missCount + 1, records := c.records.insert { key := k } }

/-- A failed record is loaded again. -/
def retryFailed (c : ImmutableCache K D V) (k : K) : ImmutableCache K D V :=
  c.update k (fun r => if r.state = .failed then { r with state := .loading } else r)
    fun r => by split <;> rfl

/-- `acquire_cache_record`. -/
def acquireCacheRecord (c : ImmutableCache K D V) (k : K) : ImmutableCache K D V :=
  ((c.findOrCreateRecord k).retryFailed k).addRefToCacheRecord k

omit [DecidableEq D] in
/-- Acquiring a key that has no record. -/
theorem acquireCacheRecord_of_not_has {c : ImmutableCache K D V} {k : K}
    (hk : ¬ c.records.Has k) :
    c.acquireCacheRecord k = { c with
      missCount := c.missCount + 1
      records := c.records.insert { key := k, refCount := 1 } } := by
  let r : CacheRecord K D := { key := k }
  have hr : ¬ c.records.Has r.key := hk
  have hmodify : ∀ f hf, (c.records.insert r).modify k f hf = c.records.insert (f r) :=
    fun f hf => Table.modify_insert hr
  let r' : CacheRecord K D := { r with refCount := 1 }
  have hfind : (c.records.insert r').find? k = some r' := by
    rw [Table.find?_insert (a := r') hk, if_pos rfl]
  simp only [r, r'] at hmodify hfind
  rw [acquireCacheRecord, findOrCreateRecord]
  rw [if_neg hk]
  simp [addRefToCacheRecord, retryFailed, update, hmodify, hfind]

/-- Whether `acquire_cache_record` calls `create_task`: for a new or failed record. -/
def createsTask (c : ImmutableCache K D V) (k : K) : Bool :=
  match c.records.find? k with
  | some r => r.state = .failed
  | none => true

/-- `record_value_untyped`. -/
def recordValueUntyped (c : ImmutableCache K D V) (k : K) (d : D) (v : V) (deepSize : ℕ) :
    ImmutableCache K D V :=
  let locked := match c.records.find? k with
    | some r => decide (0 < r.lockCount)
    | none => false
  let cas := c.cas.ensureRecord d v deepSize
  { c with
    records := c.records.modify k
      (fun r => { r with state := .ready, casRecord := some d }) fun _ => rfl
    cas := if locked then cas.addLock d else cas }

def recordFailure (c : ImmutableCache K D V) (k : K) : ImmutableCache K D V :=
  c.update k (fun r => { r with state := .failed }) fun _ => rfl

/-- `get_value`: the value in the CAS record that the AC record points to. -/
def getValue (c : ImmutableCache K D V) (k : K) : Option V :=
  (c.records.find? k).bind fun r =>
    r.casRecord.bind fun d => (c.cas.map.find? d).map CasRecord.value

def stateOf (c : ImmutableCache K D V) (k : K) : Option EntryState :=
  (c.records.find? k).map CacheRecord.state

end ImmutableCache

/-! ## Clients

The clients of one cache own cache pointers and locked records, any number of each
on the same key.  What a client can do is an `Action`; the guards of `step` say that
it needs a live object for it, and that values and failures are recorded while the
record is loading.  All actions hold the cache mutex, so a run is a sequence. -/

/-- A cache with its live pointers and locks.  `recorded` is a ghost: the value last
passed to `record_value` for each key. -/
structure System (K D V : Type*) where
  cache : ImmutableCache K D V
  ptrs : List K := []
  locks : List K := []
  recorded : K → Option V := fun _ => none

inductive Action (K V : Type*)
  /-- Construct an `immutable_cache_ptr`. -/
  | acquire (k : K)
  /-- Destroy one. -/
  | release (k : K)
  /-- Construct a `local_locked_cache_record`. -/
  | lock (k : K)
  /-- Destroy one. -/
  | unlock (k : K)
  | recordValue (k : K) (v : V)
  | recordFailure (k : K)
  | reduce (desiredSize : ℕ)
  | clearUnused

namespace System

variable (digestOf : V → D) (deepSizeof : V → ℕ)

def step (s : System K D V) : Action K V → Option (System K D V)
  | .acquire k => some { s with cache := s.cache.acquireCacheRecord k, ptrs := k :: s.ptrs }
  | .release k =>
      if k ∈ s.ptrs then
        some { s with cache := s.cache.delRefFromCacheRecord k, ptrs := s.ptrs.erase k }
      else none
  | .lock k =>
      if k ∈ s.ptrs ∨ k ∈ s.locks then
        some { s with
          cache := (s.cache.addRefToCacheRecord k).addLockToCacheRecord k
          locks := k :: s.locks }
      else none
  | .unlock k =>
      if k ∈ s.locks then
        some { s with
          cache := (s.cache.delLockFromCacheRecord k).delRefFromCacheRecord k
          locks := s.locks.erase k }
      else none
  | .recordValue k v =>
      if k ∈ s.ptrs ∧ s.cache.stateOf k = some .loading then
        some { s with
          cache := s.cache.recordValueUntyped k (digestOf v) v (deepSizeof v)
          recorded := Function.update s.recorded k (some v) }
      else none
  | .recordFailure k =>
      if k ∈ s.ptrs ∧ s.cache.stateOf k = some .loading then
        some { s with cache := s.cache.recordFailure k }
      else none
  | .reduce n => some { s with cache := s.cache.reduceMemoryCacheSize n }
  | .clearUnused => some { s with cache := s.cache.clearUnusedEntries }

/-- An empty cache that nobody uses. -/
def init (unusedSizeLimit : ℕ) : System K D V := { cache := { unusedSizeLimit } }

end System
end Cradle.Caching
