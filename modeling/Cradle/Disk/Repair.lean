import Cradle.Disk.RoundTrip

/-!
# Entries whose file cannot be read

`read` turns an unreadable file into a miss, and the comment there says that the entry
will be overwritten.  But an insertion under a key that has an action only notes the
use of the action, and `write` then has nothing to finish: neither the row nor the file
is written again.
-/

namespace Cradle.Disk.LocalDiskCache

open LLDiskCache

variable {env : LocalEnv} {c : LocalDiskCache}

/-- The value of the key is in a file, and `read` returns nothing: the file is missing, or
what it holds does not decompress to the value of the row. -/
def Damaged (env : LocalEnv) (c : LocalDiskCache) (key : Key) : Prop :=
  ∃ a e, c.ll.db.acByKey key = some a ∧ c.ll.db.cas.find? a.casId = some e
    ∧ (e.storage = .inFile ∨ e.storage = .blobFile) ∧ (c.read env key).2 = none

/-- Writing under a key that is there only notes its use. -/
theorem write_of_present (env : LocalEnv) {key : Key} {a : AcRow}
    (h : c.ll.db.acByKey key = some a) (now : ℕ) (value : Blob) :
    ∃ ids, c.write env now key value = { c with ll := { c.ll with acIdsToFlush := ids } } := by
  rw [write]
  dsimp only
  split
  · rcases c.ll.initiateInsert_cases now key (env.sha value.stream) with
      ⟨-, ids, -, heq⟩ | ⟨-, hkey, -⟩ | ⟨hkey, -⟩
    · rw [heq]
      exact ⟨ids, rfl⟩
    · simp [h] at hkey
    · simp [h] at hkey
  · rcases c.ll.insert_cases now key (env.sha value.stream) value none with
      ⟨-, ids, -, heq⟩ | ⟨-, hkey, -⟩ | ⟨hkey, -⟩
    · rw [heq]
      exact ⟨ids, rfl⟩
    · simp [h] at hkey
    · simp [h] at hkey

/-- Reading changes neither the tables nor the files. -/
theorem read_fst (env : LocalEnv) (c : LocalDiskCache) (key : Key) :
    (c.read env key).1.ll.db = c.ll.db ∧ (c.read env key).1.ll.files = c.ll.files
      ∧ (c.read env key).1.checkFileData = c.checkFileData := by
  have hfst : (c.read env key).1 = { c with ll := (c.ll.find env.blobFiles key).1 } := by
    rw [read]
    split
    · next heq => rw [heq]
    · next heq => rw [heq]
  obtain ⟨ids, hits, misses, heq⟩ := c.ll.find_eq env.blobFiles key
  rw [hfst, heq]
  exact ⟨rfl, rfl, rfl⟩

/-- What `find` returns: the entry of the key's action, if there is one. -/
theorem find_snd (ll : LLDiskCache) (blobFiles : Bytes → Option Bytes) (key : Key) :
    (ll.find blobFiles key).2 =
      match ll.db.acByKey key with
      | none => .ok none
      | some a => ll.lookUpCasEntry blobFiles a.casId := by
  obtain ⟨ids, hlook, -⟩ := ll.lookUpAcAndCasIds_eq key
  rw [find]
  rw [hlook]
  cases ll.db.acByKey key with
  | none => rfl
  | some a =>
      have hentry : { ll with acIdsToFlush := ids }.lookUpCasEntry blobFiles a.casId
        = ll.lookUpCasEntry blobFiles a.casId := rfl
      simp only [Option.map_some, hentry]
      cases ll.lookUpCasEntry blobFiles a.casId with
      | error e => rfl
      | ok entry => cases entry <;> rfl

/-- What `read` returns depends on the tables and the files only. -/
theorem read_snd_congr {c' : LocalDiskCache} (hdb : c'.ll.db = c.ll.db)
    (hfiles : c'.ll.files = c.ll.files) (hcheck : c'.checkFileData = c.checkFileData) (key : Key) :
    (c'.read env key).2 = (c.read env key).2 := by
  have hfind : (c'.ll.find env.blobFiles key).2 = (c.ll.find env.blobFiles key).2 := by
    simp only [find_snd, lookUpCasEntry, lookUpInternalCasEntry, hdb]
  have hleft : ∀ ll : LLDiskCache, (ll.find env.blobFiles key).1.files = ll.files := by
    intro ll
    obtain ⟨ids, hits, misses, heq⟩ := ll.find_eq env.blobFiles key
    rw [heq]
  have hsame := (hleft c'.ll).trans (hfiles.trans (hleft c.ll).symm)
  unfold read
  generalize c'.ll.find env.blobFiles key = r' at hfind hsame
  generalize c.ll.find env.blobFiles key = r at hfind hsame
  obtain ⟨ll', r'⟩ := r'
  obtain ⟨ll, r⟩ := r
  dsimp only at hfind hsame
  subst hfind
  cases r' with
  | error e => rfl
  | ok entry =>
      cases entry with
      | none => rfl
      | some entry =>
          dsimp only
          rw [hsame]
          unfold decompressFileData
          rw [hcheck]

/-- A key with an action is read in the same way before and after it is written. -/
theorem read_write_of_present {key : Key} {a : AcRow} (h : c.ll.db.acByKey key = some a)
    (now : ℕ) (value : Blob) :
    (((c.read env key).1.write env now key value).read env key).2 = (c.read env key).2 := by
  obtain ⟨hdb, hfiles, hcheck⟩ := read_fst env c key
  have hkey : (c.read env key).1.ll.db.acByKey key = some a := by rw [hdb, h]
  obtain ⟨ids, hwrite⟩ := write_of_present env hkey now value
  rw [hwrite]
  refine read_snd_congr ?_ ?_ ?_ key
  · exact hdb
  · exact hfiles
  · exact hcheck

/-- **No repair.**  Whatever the state of the cache, a value that is written after its key
was found damaged is not read back. -/
theorem not_read_write_of_damaged {key : Key} (h : c.Damaged env key) (now : ℕ) (value : Blob) :
    (((c.read env key).1.write env now key value).read env key).2.map Blob.data
      ≠ some value.data := by
  obtain ⟨a, e, hkey, -, -, hread⟩ := h
  rw [read_write_of_present hkey now value, hread]
  simp

/-- A cache that has lost the file of a large value. -/
def lostFile : LocalDiskCache :=
  let c := (construct plainEnv (fun _ => {}) {} false).write plainEnv 1 [0] largeValue
  { c with ll := { c.ll with files := fun _ => none } }

theorem damaged_lostFile : lostFile.Damaged plainEnv [0] := by
  refine ⟨⟨1, [0], 1, 1⟩, ⟨1, 0 :: List.replicate 1025 7, .inFile, none, some 1026, some 1025⟩, ?_⟩
  decide +kernel

theorem not_read_write_lostFile :
    (((lostFile.read plainEnv [0]).1.write plainEnv 2 [0] (.ofBytes [1, 2, 3])).read plainEnv
      [0]).2.map Blob.data ≠ some [1, 2, 3] :=
  not_read_write_of_damaged damaged_lostFile 2 (.ofBytes [1, 2, 3])

/-- The large value cannot be written again once its file is lost, though lz4 works. -/
theorem not_repaired_lostFile :
    plainEnv.lz4.Lawful ∧ ¬ ∀ (c : LocalDiskCache) (key : Key), c.Damaged plainEnv key →
      ∀ now value, (((c.read plainEnv key).1.write plainEnv now key value).read plainEnv
        key).2.map Blob.data = some value.data := by
  refine ⟨storing_lawful, fun h => ?_⟩
  have hread := h lostFile [0] damaged_lostFile 2 largeValue
  obtain ⟨a, e, hkey, -, -, hnone⟩ := damaged_lostFile
  rw [read_write_of_present hkey, hnone] at hread
  simp at hread

end Cradle.Disk.LocalDiskCache
