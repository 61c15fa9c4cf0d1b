import Cradle.Core.Bytes
import Cradle.Lib.Table
import Cradle.Lib.Transition
import Mathlib.Data.List.Sort

/-!
# The low-level disk cache

`ll_disk_cache` is a directory with an SQLite database and one file for each large
value.  The database has two tables: `actions` maps keys to CAS entries, and `cas`
describes the values, by digest.  There is no foreign key: the functions below keep
the two tables together by hand.

All calls hold the cache mutex, so an operation is a function on the cache.  An
exception does not undo what was done before it, so an operation that can throw
returns the new cache beside its result.  The two loops that catch exceptions log
them, in `errorLog`.

The clock is an argument `now` of the operations that read it.  Opening the
database, creating directories and running SQL statements are assumed to succeed,
apart from the `unique` constraints of the schema and the row-count check of
single-row queries, which are part of the model.
-/

namespace Cradle.Disk

abbrev Key := Bytes
abbrev Digest := Bytes

/-- The `storage` column of the `cas` table. -/
inductive Storage
  | inDb | inFile | invalid | blobFile
  deriving DecidableEq, Repr

/-- A row of the `cas` table; `none` is SQL's `NULL`. -/
structure CasRow where
  casId : ℤ
  digest : Digest
  storage : Storage
  value : Option Bytes := none
  size : Option ℕ := none
  originalSize : Option ℕ := none
  deriving DecidableEq, Repr

/-- A row of the `actions` table. -/
structure AcRow where
  acId : ℤ
  key : Key
  casId : ℤ
  lastAccessed : ℕ
  deriving DecidableEq, Repr

structure Db where
  cas : Table CasRow.casId := ∅
  actions : Table AcRow.acId := ∅

/-- A cache directory: the database and the digest-named files. -/
structure Directory where
  db : Db := {}
  files : Digest → Option Bytes := fun _ => none

inductive Error
  /-- A single-row query gave no row. -/
  | rowCount
  /-- An insertion violates a `unique` constraint. -/
  | constraint
  /-- A blob file cannot be opened. -/
  | blobFile
  deriving DecidableEq, Repr

/-- `ll_disk_cache_config`. -/
structure Config where
  directory : Option Bytes := none
  sizeLimit : Option ℕ := none
  startEmpty : Bool := false

/-- `ll_disk_cache_impl`, with the contents of its directory and of the directories
it does not use at the moment. -/
structure LLDiskCache where
  dir : Bytes
  db : Db := {}
  files : Digest → Option Bytes := fun _ => none
  sizeLimit : ℕ := 0
  bytesInsertedSinceLastSweep : ℕ := 0
  acIdsToFlush : List ℤ := []
  hitCount : ℕ := 0
  missCount : ℕ := 0
  errorLog : List Error := []
  otherDirs : Bytes → Directory := fun _ => {}

/-! ## Queries -/

/-- The primary key SQLite gives to a new row: one more than the largest, or 1. -/
def newRowId (ids : List ℤ) : ℤ := ids.foldr max 0 + 1

namespace CasRow

/-- What the row adds to `sum(size)`. -/
def weight (e : CasRow) : ℤ := e.size.getD 0

end CasRow

namespace Db

variable (db : Db)

def casByDigest (digest : Digest) : Option CasRow := db.cas.rows.find? (·.digest = digest)

def acByKey (key : Key) : Option AcRow := db.actions.rows.find? (·.key = key)

/-- `count_cas_entry_refs`. -/
def countCasEntryRefs (casId : ℤ) : ℕ := db.actions.rows.countP (·.casId = casId)

/-- `get_total_cas_size`: rows without a size count as 0. -/
def totalCasSize : ℤ := db.cas.sum CasRow.weight

/-- `get_ac_lru_entries`: the actions in the order of `last_accessed`. -/
def acLruEntries : List AcRow :=
  db.actions.rows.insertionSort fun a b => a.lastAccessed ≤ b.lastAccessed

def newCasId : ℤ := newRowId (db.cas.rows.map CasRow.casId)

def newAcId : ℤ := newRowId (db.actions.rows.map AcRow.acId)

/-- `insert into cas`. -/
def insertCas (row : CasRow) : Except Error Db :=
  if (db.casByDigest row.digest).isSome then .error .constraint
  else .ok { db with cas := db.cas.insert row }

/-- `insert into actions`. -/
def insertAc (row : AcRow) : Except Error Db :=
  if (db.acByKey row.key).isSome then .error .constraint
  else .ok { db with actions := db.actions.insert row }

end Db

namespace LLDiskCache

/-! ## Operations on the AC -/

/-- `look_up_ac_and_cas_ids`: a found entry is noted as used. -/
def lookUpAcAndCasIds (c : LLDiskCache) (key : Key) : LLDiskCache × Option (ℤ × ℤ) :=
  match c.db.acByKey key with
  | none => (c, none)
  | some a =>
      ({ c with acIdsToFlush :=
          if a.acId ∈ c.acIdsToFlush then c.acIdsToFlush else c.acIdsToFlush ++ [a.acId] },
        some (a.acId, a.casId))

def insertAcEntry (c : LLDiskCache) (now : ℕ) (key : Key) (casId : ℤ) :
    LLDiskCache × Except Error Unit :=
  match c.db.insertAc { acId := c.db.newAcId, key, casId, lastAccessed := now } with
  | .ok db => ({ c with db }, .ok ())
  | .error e => (c, .error e)

/-- `get_cas_id_for_ac_entry`. -/
def getCasIdForAcEntry (c : LLDiskCache) (acId : ℤ) : Except Error ℤ :=
  match c.db.actions.find? acId with
  | some a => .ok a.casId
  | none => .error .rowCount

def removeAcEntry (c : LLDiskCache) (acId : ℤ) : LLDiskCache :=
  { c with db := { c.db with actions := c.db.actions.erase acId } }

/-- `record_ac_usage`. -/
def recordAcUsage (c : LLDiskCache) (now : ℕ) (acId : ℤ) : LLDiskCache :=
  { c with db := { c.db with
      actions := c.db.actions.modify acId (fun a => { a with lastAccessed := now }) fun _ => rfl } }

/-! ## Operations on the CAS -/

/-- The row of a value.  For a blob file the path is stored instead of the data; a null
data pointer is bound as `NULL`. -/
def valueRow (casId : ℤ) (digest : Digest) (value : Blob) (originalSize : ℕ) : CasRow :=
  match value.mappedFile with
  | some path =>
      { casId, digest, storage := .blobFile, value := some path, size := some value.size,
        originalSize := some originalSize }
  | none =>
      { casId, digest, storage := .inDb,
        value := if value.nullData then none else some value.data,
        size := some value.size, originalSize := some originalSize }

/-- `insert_cas_entry`. -/
def insertCasEntry (c : LLDiskCache) (digest : Digest) (value : Blob) (originalSize : ℕ) :
    LLDiskCache × Except Error ℤ :=
  let casId := c.db.newCasId
  match c.db.insertCas (valueRow casId digest value originalSize) with
  | .ok db => ({ c with db }, .ok casId)
  | .error e => (c, .error e)

def initiateCasInsert (c : LLDiskCache) (digest : Digest) : LLDiskCache × Except Error ℤ :=
  let casId := c.db.newCasId
  match c.db.insertCas { casId, digest, storage := .invalid } with
  | .ok db => ({ c with db }, .ok casId)
  | .error e => (c, .error e)

/-- What `finish_cas_insert` sets. -/
def finishRow (size originalSize : ℕ) (e : CasRow) : CasRow :=
  { e with storage := .inFile, size := some size, originalSize := some originalSize }

@[simp] theorem finishRow_casId (size originalSize : ℕ) (e : CasRow) :
    (finishRow size originalSize e).casId = e.casId := rfl

/-- `finish_cas_insert`: an update by row id, which affects no row if there is none. -/
def finishCasInsert (c : LLDiskCache) (casId : ℤ) (size originalSize : ℕ) : LLDiskCache :=
  { c with db := { c.db with
      cas := c.db.cas.modify casId (finishRow size originalSize) (finishRow_casId _ _) } }

/-- `look_up_internal_cas_entry`. -/
def lookUpInternalCasEntry (c : LLDiskCache) (casId : ℤ) : Except Error CasRow :=
  match c.db.cas.find? casId with
  | some e => .ok e
  | none => .error .rowCount

/-- `remove_cas_entry_db_and_file`; returns the size of the removed entry. -/
def removeCasEntryDbAndFile (c : LLDiskCache) (casId : ℤ) : LLDiskCache × Except Error ℤ :=
  match c.lookUpInternalCasEntry casId with
  | .error e => (c, .error e)
  | .ok e =>
      ({ c with
          db := { c.db with cas := c.db.cas.erase casId }
          files := if e.storage = .inFile then Function.update c.files e.digest none
            else c.files }, .ok e.weight)

/-! ## Operations on both -/

/-- `remove_ac_entry_with_cas_entry`; returns the number of bytes reclaimed. -/
def removeAcEntryWithCasEntry (c : LLDiskCache) (acId casId : ℤ) :
    LLDiskCache × Except Error ℤ :=
  let c := c.removeAcEntry acId
  if c.db.countCasEntryRefs casId = 0 then c.removeCasEntryDbAndFile casId else (c, .ok 0)

/-- The loop of `remove_all_entries` over a snapshot of the actions. -/
def removeAllLoop : List AcRow → LLDiskCache → LLDiskCache
  | [], c => c
  | a :: as, c =>
      match c.removeAcEntryWithCasEntry a.acId a.casId with
      | (c, .ok _) => removeAllLoop as c
      | (c, .error e) => removeAllLoop as { c with errorLog := c.errorLog ++ [e] }

def removeAllEntries (c : LLDiskCache) : LLDiskCache := removeAllLoop c.db.acLruEntries c

/-- `remove_invalid_entries`. -/
def removeInvalidEntries (c : LLDiskCache) : LLDiskCache :=
  { c with db := {
      actions := c.db.actions.filter fun a =>
        ¬ ∃ e ∈ c.db.cas.rows, e.casId = a.casId ∧ e.storage = .invalid
      cas := c.db.cas.filter fun e => e.storage ≠ .invalid } }

/-- The loop of `enforce_cache_size_limit` over a snapshot of the actions. -/
def enforceLoop : List AcRow → ℤ → LLDiskCache → LLDiskCache
  | [], _, c => c
  | a :: as, size, c =>
      match c.removeAcEntryWithCasEntry a.acId a.casId with
      | (c, .ok sizeDiff) =>
          if size - sizeDiff ≤ c.sizeLimit then c else enforceLoop as (size - sizeDiff) c
      | (c, .error e) => enforceLoop as size { c with errorLog := c.errorLog ++ [e] }

def enforceCacheSizeLimit (c : LLDiskCache) : LLDiskCache :=
  let c := if c.sizeLimit < c.db.totalCasSize
    then enforceLoop c.db.acLruEntries c.db.totalCasSize c else c
  { c with bytesInsertedSinceLastSweep := 0 }

/-- `record_cache_growth`. -/
def recordCacheGrowth (c : LLDiskCache) (size : ℕ) : LLDiskCache :=
  let c := { c with bytesInsertedSinceLastSweep := c.bytesInsertedSinceLastSweep + size }
  if c.sizeLimit / 0x80 < c.bytesInsertedSinceLastSweep then c.enforceCacheSizeLimit else c

/-! ## The interface -/

/-- The part of `initialize` before the first sweep, on the directory contents that it
finds.  `sharedCacheDir` is the default directory. -/
def openDirectory (sharedCacheDir : Bytes) (c : LLDiskCache) (config : Config) : LLDiskCache :=
  let dir := config.directory.getD sharedCacheDir
  let found : Directory := if config.startEmpty then {} else c.otherDirs dir
  let c := { c with
    dir
    sizeLimit := config.sizeLimit.getD 0x40000000
    db := found.db
    files := found.files }
  let c := if config.startEmpty then c.removeAllEntries else c
  c.removeInvalidEntries

/-- `initialize`. -/
def initializeCache (sharedCacheDir : Bytes) (c : LLDiskCache) (config : Config) : LLDiskCache :=
  (openDirectory sharedCacheDir c config).enforceCacheSizeLimit

/-- `reset`: the current directory is closed before the new one is opened. -/
def reset (sharedCacheDir : Bytes) (c : LLDiskCache) (config : Config) : LLDiskCache :=
  initializeCache sharedCacheDir
    { c with otherDirs := Function.update c.otherDirs c.dir ⟨c.db, c.files⟩ } config

/-- The constructor, on a disk with the given directories. -/
def construct (sharedCacheDir : Bytes) (dirs : Bytes → Directory) (config : Config) :
    LLDiskCache :=
  initializeCache sharedCacheDir { dir := [], otherDirs := dirs } config

def removeEntry (c : LLDiskCache) (acId : ℤ) : LLDiskCache × Except Error Unit :=
  match c.getCasIdForAcEntry acId with
  | .error e => (c, .error e)
  | .ok casId =>
      let r := c.removeAcEntryWithCasEntry acId casId
      (r.1, r.2.map fun _ => ())

def clear (c : LLDiskCache) : LLDiskCache := c.removeAllEntries

/-- `ll_disk_cache_cas_entry`. -/
structure CasEntry where
  casId : ℤ
  digest : Digest
  value : Option Blob
  size : ℕ
  originalSize : ℕ

/-- `look_up_cas_entry`.  `blobFiles` gives the contents of the blob files that can be
opened. -/
def lookUpCasEntry (blobFiles : Bytes → Option Bytes) (c : LLDiskCache) (casId : ℤ) :
    Except Error (Option CasEntry) :=
  match c.lookUpInternalCasEntry casId with
  | .error e => .error e
  | .ok e =>
      let entry (value : Option Blob) : CasEntry :=
        { casId, digest := e.digest, value, size := e.size.getD 0,
          originalSize := e.originalSize.getD 0 }
      match e.storage with
      | .invalid => .ok none
      | .blobFile =>
          match blobFiles (e.value.getD []) with
          | some data => .ok (some (entry (some (Blob.ofFile data e.value))))
          | none => .error .blobFile
      | .inDb | .inFile => .ok (some (entry (e.value.map Blob.ofBytes)))

/-- `find`. -/
def find (blobFiles : Bytes → Option Bytes) (c : LLDiskCache) (key : Key) :
    LLDiskCache × Except Error (Option CasEntry) :=
  match c.lookUpAcAndCasIds key with
  | (c, none) => ({ c with missCount := c.missCount + 1 }, .ok none)
  | (c, some (_, casId)) =>
      match c.lookUpCasEntry blobFiles casId with
      | .error e => (c, .error e)
      | .ok none => ({ c with missCount := c.missCount + 1 }, .ok none)
      | .ok (some entry) => ({ c with hitCount := c.hitCount + 1 }, .ok (some entry))

/-- `look_up_ac_id`. -/
def lookUpAcId (c : LLDiskCache) (key : Key) : LLDiskCache × Option ℤ :=
  let r := c.lookUpAcAndCasIds key
  (r.1, r.2.map Prod.fst)

def insert (c : LLDiskCache) (now : ℕ) (key : Key) (digest : Digest) (value : Blob)
    (originalSize : Option ℕ) : LLDiskCache × Except Error Unit :=
  match c.lookUpAcAndCasIds key with
  | (c, some _) => (c, .ok ())
  | (c, none) =>
      match c.db.casByDigest digest with
      | some e =>
          match c.insertAcEntry now key e.casId with
          | (c, .error e) => (c, .error e)
          | (c, .ok ()) => (c.recordCacheGrowth 0, .ok ())
      | none =>
          match c.insertCasEntry digest value (originalSize.getD value.size) with
          | (c, .error e) => (c, .error e)
          | (c, .ok casId) =>
              match c.insertAcEntry now key casId with
              | (c, .error e) => (c, .error e)
              | (c, .ok ()) => (c.recordCacheGrowth value.size, .ok ())

/-- `initiate_insert`; returns the row id that the caller must finish, if any. -/
def initiateInsert (c : LLDiskCache) (now : ℕ) (key : Key) (digest : Digest) :
    LLDiskCache × Except Error (Option ℤ) :=
  match c.lookUpAcAndCasIds key with
  | (c, some _) => (c, .ok none)
  | (c, none) =>
      match c.db.casByDigest digest with
      | some e =>
          match c.insertAcEntry now key e.casId with
          | (c, .error e) => (c, .error e)
          | (c, .ok ()) => (c, .ok none)
      | none =>
          match c.initiateCasInsert digest with
          | (c, .error e) => (c, .error e)
          | (c, .ok casId) =>
              match c.insertAcEntry now key casId with
              | (c, .error e) => (c, .error e)
              | (c, .ok ()) => (c, .ok (some casId))

def finishInsert (c : LLDiskCache) (casId : ℤ) (size originalSize : ℕ) : LLDiskCache :=
  (c.finishCasInsert casId size originalSize).recordCacheGrowth size

/-- The loop of `flush_ac_usage`: every statement reads the clock, the `i`-th one `now i`. -/
def flushLoop : (ℕ → ℕ) → List ℤ → LLDiskCache → LLDiskCache
  | _, [], c => c
  | now, acId :: acIds, c => flushLoop (fun i => now (i + 1)) acIds (c.recordAcUsage (now 0) acId)

/-- `flush_ac_usage`.  `idle` says that the latest activity is more than a second ago. -/
def flushAcUsage (c : LLDiskCache) (now : ℕ → ℕ) (forced idle : Bool) : LLDiskCache :=
  if forced ∨ (c.acIdsToFlush ≠ [] ∧ (10 ≤ c.acIdsToFlush.length ∨ idle)) then
    { flushLoop now c.acIdsToFlush c with acIdsToFlush := [] }
  else c

/-! ## Runs -/

/-- The calls a client makes.  A `restart` ends the process, at any moment, and
constructs a new cache on the same disk. -/
inductive Op
  | insert (now : ℕ) (key : Key) (digest : Digest) (value : Blob) (originalSize : Option ℕ)
  | initiateInsert (now : ℕ) (key : Key) (digest : Digest)
  | finishInsert (casId : ℤ) (size originalSize : ℕ)
  | find (key : Key)
  | lookUpAcId (key : Key)
  | removeEntry (acId : ℤ)
  | clear
  | flushAcUsage (now : ℕ → ℕ) (forced idle : Bool)
  | reset (config : Config)
  | restart (config : Config)

/-- The environment of a cache: its default directory and the blob files. -/
structure Env where
  sharedCacheDir : Bytes
  blobFiles : Bytes → Option Bytes

def step (env : Env) (c : LLDiskCache) : Op → LLDiskCache
  | .insert now key digest value originalSize => (c.insert now key digest value originalSize).1
  | .initiateInsert now key digest => (c.initiateInsert now key digest).1
  | .finishInsert casId size originalSize => c.finishInsert casId size originalSize
  | .find key => (c.find env.blobFiles key).1
  | .lookUpAcId key => (c.lookUpAcId key).1
  | .removeEntry acId => (c.removeEntry acId).1
  | .clear => c.clear
  | .flushAcUsage now forced idle => c.flushAcUsage now forced idle
  | .reset config => c.reset env.sharedCacheDir config
  | .restart config =>
      construct env.sharedCacheDir (Function.update c.otherDirs c.dir ⟨c.db, c.files⟩) config

/-- The states of the runs that start with a cache constructed on an empty disk. -/
abbrev Reachable (env : Env) : LLDiskCache → Prop :=
  Transition.Reachable (fun c op => some (step env c op)) (fun _ _ => True)
    (Set.range (construct env.sharedCacheDir fun _ => {}))

/-- Further calls lead from a reachable state to a reachable state. -/
theorem Reachable.calls {env : Env} {c : LLDiskCache} (h : Reachable env c) (ops : List Op) :
    Reachable env (ops.foldl (step env) c) := by
  induction ops generalizing c with
  | nil => exact h
  | cons op ops ih => exact ih (.step h trivial rfl)

end LLDiskCache
end Cradle.Disk
