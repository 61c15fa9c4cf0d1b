import Cradle.Disk.LLDiskCache

/-!
# Referential integrity of the disk cache

Between calls every action refers to a CAS entry and every CAS entry is referred to
by an action.  Removal is the delicate part: an action goes first, its CAS entry only
with the last reference, and the two loops work on a snapshot of the actions.
`Evicts` is the relation of removing any number of existing actions in this way; both
loops are instances of it, so what one removal preserves they preserve.

What the insertions do is said once, in `insert_cases` and `initiateInsert_cases`.
-/

namespace Cradle.Disk

/-! ## New row ids -/

theorem lt_newRowId {ids : List ℤ} {i : ℤ} (h : i ∈ ids) : i < newRowId ids := by
  have hle : i ≤ ids.foldr max 0 := by
    induction ids with
    | nil => simp at h
    | cons j ids ih =>
        rcases List.mem_cons.mp h with rfl | h
        · exact le_max_left _ _
        · exact (ih h).trans (le_max_right _ _)
  rw [newRowId]
  omega

namespace Db

variable {db : Db}

theorem casId_lt_newCasId {e : CasRow} (h : e ∈ db.cas) : e.casId < db.newCasId :=
  lt_newRowId (List.mem_map.mpr ⟨e, h, rfl⟩)

theorem not_has_newCasId (db : Db) : ¬ db.cas.Has db.newCasId := by
  rintro ⟨e, he, heq⟩
  have := casId_lt_newCasId he
  omega

theorem not_has_newAcId (db : Db) : ¬ db.actions.Has db.newAcId := by
  rintro ⟨a, ha, heq⟩
  have : a.acId < db.newAcId := lt_newRowId (List.mem_map.mpr ⟨a, ha, rfl⟩)
  omega

theorem casByDigest_eq_none {d : Digest} :
    db.casByDigest d = none ↔ ∀ e ∈ db.cas, e.digest ≠ d := by
  simp [casByDigest, List.find?_eq_none, Table.mem_rows]

theorem mem_of_casByDigest {d : Digest} {e : CasRow} (h : db.casByDigest d = some e) :
    e ∈ db.cas ∧ e.digest = d :=
  ⟨List.mem_of_find?_eq_some h, by simpa using List.find?_some h⟩

theorem acByKey_eq_none {k : Key} : db.acByKey k = none ↔ ∀ a ∈ db.actions, a.key ≠ k := by
  simp [acByKey, List.find?_eq_none, Table.mem_rows]

theorem mem_of_acByKey {k : Key} {a : AcRow} (h : db.acByKey k = some a) :
    a ∈ db.actions ∧ a.key = k :=
  ⟨List.mem_of_find?_eq_some h, by simpa using List.find?_some h⟩

theorem countCasEntryRefs_eq_zero {i : ℤ} :
    db.countCasEntryRefs i = 0 ↔ ∀ a ∈ db.actions, a.casId ≠ i := by
  simp [countCasEntryRefs, List.countP_eq_zero, Table.mem_rows]

/-! ## The invariant -/

/-- Actions and CAS entries refer to each other, and keys and digests are unique. -/
structure Integral (db : Db) : Prop where
  refers : ∀ a ∈ db.actions, db.cas.Has a.casId
  referred : ∀ e ∈ db.cas, ∃ a ∈ db.actions, a.casId = e.casId
  keys : db.actions.UniqueBy AcRow.key
  digests : db.cas.UniqueBy CasRow.digest

namespace Integral

theorem empty : Integral {} where
  refers a h := absurd h (Table.not_mem_empty a)
  referred e h := absurd h (Table.not_mem_empty e)
  keys := .empty
  digests := .empty

/-- A new action for an existing CAS entry. -/
theorem addAc (h : db.Integral) {a : AcRow} (ha : ¬ db.actions.Has a.acId)
    (hkey : ∀ b ∈ db.actions, b.key ≠ a.key) (hcas : db.cas.Has a.casId) :
    Integral { db with actions := db.actions.insert a } where
  refers b hb := by
    rcases (Table.mem_insert ha).mp hb with hb | rfl
    · exact h.refers b hb
    · exact hcas
  referred e he := by
    obtain ⟨b, hb, hbe⟩ := h.referred e he
    exact ⟨b, (Table.mem_insert ha).mpr (.inl hb), hbe⟩
  keys := h.keys.insert ha hkey
  digests := h.digests

/-- A new CAS entry together with the action that refers to it. -/
theorem addBoth (h : db.Integral) {e : CasRow} {a : AcRow} (he : ¬ db.cas.Has e.casId)
    (ha : ¬ db.actions.Has a.acId) (hdigest : ∀ e' ∈ db.cas, e'.digest ≠ e.digest)
    (hkey : ∀ b ∈ db.actions, b.key ≠ a.key) (hcas : a.casId = e.casId) :
    Integral { cas := db.cas.insert e, actions := db.actions.insert a } where
  refers b hb := by
    rcases (Table.mem_insert ha).mp hb with hb | rfl
    · exact (Table.has_insert he).mpr (.inl (h.refers b hb))
    · exact (Table.has_insert he).mpr (.inr hcas)
  referred e' he' := by
    rcases (Table.mem_insert he).mp he' with he' | rfl
    · obtain ⟨b, hb, hbe⟩ := h.referred e' he'
      exact ⟨b, (Table.mem_insert ha).mpr (.inl hb), hbe⟩
    · exact ⟨a, (Table.mem_insert ha).mpr (.inr rfl), hcas⟩
  keys := h.keys.insert ha hkey
  digests := h.digests.insert he hdigest

/-- An update of a CAS entry that keeps its digest. -/
theorem updateCas (h : db.Integral) (i : ℤ) {f : CasRow → CasRow}
    (hf : ∀ e, (f e).casId = e.casId) (hdigest : ∀ e, (f e).digest = e.digest) :
    Integral { db with cas := db.cas.modify i f hf } where
  refers a ha := (Table.has_modify hf).mpr (h.refers a ha)
  referred e he := by
    obtain ⟨e₀, he₀, rfl⟩ := (Table.mem_modify hf).mp he
    obtain ⟨a, ha, hae⟩ := h.referred e₀ he₀
    refine ⟨a, ha, hae.trans ?_⟩
    split <;> simp [hf]
  keys := h.keys
  digests := h.digests.modify hf hdigest

/-- An update of an action that keeps what it refers to. -/
theorem updateAc (h : db.Integral) (j : ℤ) {g : AcRow → AcRow}
    (hg : ∀ a, (g a).acId = a.acId) (hkey : ∀ a, (g a).key = a.key)
    (hcas : ∀ a, (g a).casId = a.casId) :
    Integral { db with actions := db.actions.modify j g hg } where
  refers a ha := by
    obtain ⟨a₀, ha₀, rfl⟩ := (Table.mem_modify hg).mp ha
    have := h.refers a₀ ha₀
    split <;> simpa [hcas] using this
  referred e he := by
    obtain ⟨a, ha, hae⟩ := h.referred e he
    have hmem : (if a.acId = j then g a else a) ∈ db.actions.modify j g hg :=
      (Table.mem_modify hg).mpr ⟨a, ha, rfl⟩
    refine ⟨_, hmem, ?_⟩
    split <;> simp [hcas, hae]
  keys := h.keys.modify hg hkey
  digests := h.digests

/-- The removal of an action that is not the last one to refer to its CAS entry. -/
theorem removeAc (h : db.Integral) {a b : AcRow} (ha : a ∈ db.actions) (hb : b ∈ db.actions)
    (hne : b.acId ≠ a.acId) (hcas : b.casId = a.casId) :
    Integral { db with actions := db.actions.erase a.acId } where
  refers c hc := h.refers c (Table.mem_erase.mp hc).1
  referred e he := by
    obtain ⟨c, hc, hce⟩ := h.referred e he
    by_cases hid : c.acId = a.acId
    · refine ⟨b, Table.mem_erase.mpr ⟨hb, hne⟩, ?_⟩
      rw [hcas, ← hce, Table.eq_of_key_eq hc ha hid]
    · exact ⟨c, Table.mem_erase.mpr ⟨hc, hid⟩, hce⟩
  keys := h.keys.filter _
  digests := h.digests

/-- The removal of the last action that refers to a CAS entry, with the entry. -/
theorem removeBoth (h : db.Integral) {a : AcRow} (ha : a ∈ db.actions)
    (hlast : ∀ b ∈ db.actions, b.casId = a.casId → b.acId = a.acId) :
    Integral { cas := db.cas.erase a.casId, actions := db.actions.erase a.acId } where
  refers b hb := by
    obtain ⟨hb, hne⟩ := Table.mem_erase.mp hb
    exact Table.has_erase.mpr ⟨h.refers b hb, fun hid => hne (hlast b hb hid)⟩
  referred e he := by
    obtain ⟨he, hne⟩ := Table.mem_erase.mp he
    obtain ⟨b, hb, hbe⟩ := h.referred e he
    refine ⟨b, Table.mem_erase.mpr ⟨hb, fun hid => hne ?_⟩, hbe⟩
    rw [← hbe, Table.eq_of_key_eq hb ha hid]
  keys := h.keys.filter _
  digests := h.digests.filter _

end Integral
end Db

/-! ## Removal -/

namespace Directory

variable {d d' : Directory}

/-- The directory without the action `a`. -/
def dropAc (d : Directory) (a : AcRow) : Directory :=
  { d with db := { d.db with actions := d.db.actions.erase a.acId } }

/-- The directory without the action `a` and the CAS entry `e`, and without its file. -/
def dropBoth (d : Directory) (a : AcRow) (e : CasRow) : Directory where
  db := { cas := d.db.cas.erase e.casId, actions := d.db.actions.erase a.acId }
  files := if e.storage = .inFile then Function.update d.files e.digest none else d.files

/-- `Evicts d d'`: some existing actions of `d` are removed, one after the other, each
with its CAS entry if it is the last one to refer to it, and this gives `d'`. -/
inductive Evicts : Directory → Directory → Prop
  | refl (d : Directory) : Evicts d d
  | shared {d d' : Directory} {a b : AcRow} (ha : a ∈ d.db.actions) (hb : b ∈ d.db.actions)
      (hne : b.acId ≠ a.acId) (hid : b.casId = a.casId) (rest : Evicts (d.dropAc a) d') :
      Evicts d d'
  | last {d d' : Directory} {a : AcRow} {e : CasRow} (ha : a ∈ d.db.actions)
      (he : e ∈ d.db.cas) (hid : e.casId = a.casId)
      (hlast : ∀ b ∈ d.db.actions, b.casId = a.casId → b.acId = a.acId)
      (rest : Evicts (d.dropBoth a e) d') : Evicts d d'

theorem integral_dropAc (h : d.db.Integral) {a b : AcRow} (ha : a ∈ d.db.actions)
    (hb : b ∈ d.db.actions) (hne : b.acId ≠ a.acId) (hid : b.casId = a.casId) :
    (d.dropAc a).db.Integral :=
  h.removeAc ha hb hne hid

theorem integral_dropBoth (h : d.db.Integral) {a : AcRow} {e : CasRow} (ha : a ∈ d.db.actions)
    (hid : e.casId = a.casId)
    (hlast : ∀ b ∈ d.db.actions, b.casId = a.casId → b.acId = a.acId) :
    (d.dropBoth a e).db.Integral := by
  simp only [dropBoth, hid]
  exact h.removeBoth ha hlast

theorem Evicts.integral (h : Evicts d d') (hi : d.db.Integral) : d'.db.Integral := by
  induction h with
  | refl => exact hi
  | shared ha hb hne hid _ ih => exact ih (integral_dropAc hi ha hb hne hid)
  | last ha _ hid hlast _ ih => exact ih (integral_dropBoth hi ha hid hlast)

theorem Evicts.trans {d'' : Directory} (h : Evicts d d') (h' : Evicts d' d'') : Evicts d d'' := by
  induction h with
  | refl => exact h'
  | shared ha hb hne hid _ ih => exact .shared ha hb hne hid (ih h')
  | last ha he hid hlast _ ih => exact .last ha he hid hlast (ih h')

end Directory

namespace LLDiskCache

open Directory

variable {c c' : LLDiskCache}

/-- The contents of the cache directory. -/
def store (c : LLDiskCache) : Directory := ⟨c.db, c.files⟩

/-- The cache with other contents. -/
def withStore (c : LLDiskCache) (d : Directory) : LLDiskCache :=
  { c with db := d.db, files := d.files }

@[simp] theorem store_withStore (c : LLDiskCache) (d : Directory) : (c.withStore d).store = d := rfl
@[simp] theorem db_withStore (c : LLDiskCache) (d : Directory) : (c.withStore d).db = d.db := rfl
@[simp] theorem withStore_store (c : LLDiskCache) : c.withStore c.store = c := rfl
@[simp] theorem withStore_withStore (c : LLDiskCache) (d d' : Directory) :
    (c.withStore d).withStore d' = c.withStore d' := rfl

/-- Removing an existing action takes its CAS entry along exactly if no other action
refers to it; the lookup of the entry does not fail. -/
theorem removeAcEntryWithCasEntry_cases (h : c.db.Integral) {a : AcRow} (ha : a ∈ c.db.actions) :
    (∃ b ∈ c.db.actions, b.acId ≠ a.acId ∧ b.casId = a.casId
      ∧ c.removeAcEntryWithCasEntry a.acId a.casId = (c.withStore (c.store.dropAc a), .ok 0))
    ∨ ∃ e ∈ c.db.cas, e.casId = a.casId
      ∧ (∀ b ∈ c.db.actions, b.casId = a.casId → b.acId = a.acId)
      ∧ c.removeAcEntryWithCasEntry a.acId a.casId
        = (c.withStore (c.store.dropBoth a e), .ok e.weight) := by
  simp only [removeAcEntryWithCasEntry]
  by_cases hrefs : (c.removeAcEntry a.acId).db.countCasEntryRefs a.casId = 0
  · right
    obtain ⟨e, he, heid⟩ := h.refers a ha
    have hlookup : (c.removeAcEntry a.acId).lookUpInternalCasEntry a.casId = .ok e := by
      simp [lookUpInternalCasEntry, removeAcEntry, Table.find?_eq_some.mpr ⟨he, heid⟩]
    refine ⟨e, he, heid, fun b hb hid => ?_, ?_⟩
    · by_contra hne
      exact Db.countCasEntryRefs_eq_zero.mp hrefs b (Table.mem_erase.mpr ⟨hb, hne⟩) hid
    · rw [if_pos hrefs, removeCasEntryDbAndFile, hlookup]
      simp [dropBoth, withStore, store, removeAcEntry, heid]
  · left
    have hrefs' := hrefs
    simp only [Db.countCasEntryRefs_eq_zero, removeAcEntry, Table.mem_erase, not_forall,
      not_not] at hrefs'
    obtain ⟨b, ⟨hb, hne⟩, hid⟩ := hrefs'
    exact ⟨b, hb, hne, hid, by rw [if_neg hrefs]; rfl⟩

/-- The snapshot a loop still has to go through: different actions, all of them there. -/
structure Snapshot (as : List AcRow) (d : Directory) : Prop where
  present : ∀ a ∈ as, a ∈ d.db.actions
  distinct : (as.map AcRow.acId).Nodup

theorem snapshot_acLruEntries (c : LLDiskCache) : Snapshot c.db.acLruEntries c.store where
  present _ ha := (List.mem_insertionSort _).mp ha
  distinct := ((List.perm_insertionSort _ _).map AcRow.acId).nodup_iff.mpr c.db.actions.nodup

/-- Removing the first action of a snapshot leaves a snapshot. -/
theorem Snapshot.tail {a : AcRow} {as : List AcRow} {d d' : Directory} (h : Snapshot (a :: as) d)
    (hact : d'.db.actions = d.db.actions.erase a.acId) : Snapshot as d' where
  present b hb := by
    rw [hact]
    refine Table.mem_erase.mpr ⟨h.present b (List.mem_cons_of_mem a hb), fun hid => ?_⟩
    exact (List.nodup_cons.mp h.distinct).1 (List.mem_map.mpr ⟨b, hb, hid⟩)
  distinct := (List.nodup_cons.mp h.distinct).2

/-- The removal of an existing action evicts it and succeeds. -/
theorem removeAcEntryWithCasEntry_evicts (h : c.db.Integral) {a : AcRow}
    (ha : a ∈ c.db.actions) :
    ∃ d n, Evicts c.store d ∧ d.db.actions = c.db.actions.erase a.acId
      ∧ c.removeAcEntryWithCasEntry a.acId a.casId = (c.withStore d, .ok n) := by
  rcases removeAcEntryWithCasEntry_cases h ha with
    ⟨b, hb, hne, hid, heq⟩ | ⟨e, he, hid, hlast, heq⟩
  · exact ⟨c.store.dropAc a, 0, .shared ha hb hne hid (.refl _), rfl, heq⟩
  · exact ⟨c.store.dropBoth a e, e.weight, .last ha he hid hlast (.refl _), rfl, heq⟩

/-- The removal loop evicts and logs no error. -/
theorem removeAllLoop_evicts {as : List AcRow} (h : c.db.Integral) (hs : Snapshot as c.store) :
    ∃ d, Evicts c.store d ∧ removeAllLoop as c = c.withStore d := by
  induction as generalizing c with
  | nil => exact ⟨c.store, .refl _, rfl⟩
  | cons a as ih =>
      obtain ⟨d, n, hev, hact, heq⟩ :=
        removeAcEntryWithCasEntry_evicts h (hs.present a List.mem_cons_self)
      obtain ⟨d', hev', hd'⟩ := ih (c := c.withStore d) (hev.integral h) (hs.tail hact)
      simp only [removeAllLoop, heq]
      exact ⟨d', hev.trans hev', hd'⟩

/-- So does the loop of a sweep. -/
theorem enforceLoop_evicts {as : List AcRow} (h : c.db.Integral) (hs : Snapshot as c.store)
    (size : ℤ) : ∃ d, Evicts c.store d ∧ enforceLoop as size c = c.withStore d := by
  induction as generalizing c size with
  | nil => exact ⟨c.store, .refl _, rfl⟩
  | cons a as ih =>
      obtain ⟨d, n, hev, hact, heq⟩ :=
        removeAcEntryWithCasEntry_evicts h (hs.present a List.mem_cons_self)
      simp only [enforceLoop, heq]
      split
      · exact ⟨d, hev, rfl⟩
      · obtain ⟨d', hev', hd'⟩ :=
          ih (c := c.withStore d) (hev.integral h) (hs.tail hact) (size - n)
        exact ⟨d', hev.trans hev', hd'⟩

theorem removeAllEntries_evicts (h : c.db.Integral) :
    ∃ d, Evicts c.store d ∧ c.removeAllEntries = c.withStore d :=
  removeAllLoop_evicts h (snapshot_acLruEntries c)

theorem enforceCacheSizeLimit_evicts (h : c.db.Integral) :
    ∃ d, Evicts c.store d ∧ c.enforceCacheSizeLimit
      = { c.withStore d with bytesInsertedSinceLastSweep := 0 } := by
  simp only [enforceCacheSizeLimit]
  split
  · obtain ⟨d, hev, hd⟩ := enforceLoop_evicts h (snapshot_acLruEntries c) c.db.totalCasSize
    exact ⟨d, hev, by rw [hd]⟩
  · exact ⟨c.store, .refl _, rfl⟩

/-- Growth is counted and may lead to a sweep. -/
theorem recordCacheGrowth_evicts (h : c.db.Integral) (size : ℕ) :
    ∃ d n, Evicts c.store d ∧ c.recordCacheGrowth size
      = { c.withStore d with bytesInsertedSinceLastSweep := n } := by
  simp only [recordCacheGrowth]
  split
  · let grown := { c with
      bytesInsertedSinceLastSweep := c.bytesInsertedSinceLastSweep + size }
    obtain ⟨d, hev, hd⟩ := enforceCacheSizeLimit_evicts (c := grown) h
    exact ⟨d, 0, hev, hd⟩
  · exact ⟨c.store, _, .refl _, rfl⟩

theorem removeEntry_evicts (h : c.db.Integral) (acId : ℤ) :
    ∃ d, Evicts c.store d ∧ (c.removeEntry acId).1 = c.withStore d := by
  rw [removeEntry, getCasIdForAcEntry]
  cases hfind : c.db.actions.find? acId with
  | none => exact ⟨c.store, .refl _, rfl⟩
  | some a =>
      obtain ⟨ha, rfl⟩ := Table.find?_eq_some.mp hfind
      obtain ⟨d, n, hev, -, heq⟩ := removeAcEntryWithCasEntry_evicts h ha
      simp only [heq]
      exact ⟨d, hev, rfl⟩

theorem integral_removeInvalidEntries (h : c.db.Integral) :
    c.removeInvalidEntries.db.Integral where
  refers a ha := by
    simp only [removeInvalidEntries, Table.mem_filter, decide_eq_true_eq, not_exists,
      not_and] at ha
    obtain ⟨e, he, hid⟩ := h.refers a ha.1
    exact ⟨e, Table.mem_filter.mpr ⟨he, by simpa using ha.2 e he hid⟩, hid⟩
  referred e he := by
    simp only [removeInvalidEntries, Table.mem_filter, decide_eq_true_eq] at he
    obtain ⟨a, ha, hid⟩ := h.referred e he.1
    refine ⟨a, Table.mem_filter.mpr ⟨ha, ?_⟩, hid⟩
    simp only [decide_eq_true_eq, not_exists, not_and]
    intro e' he' hid'
    rw [Table.eq_of_key_eq he' he.1 (hid'.trans hid)]
    exact he.2
  keys := h.keys.filter _
  digests := h.digests.filter _

/-! ## Insertion -/

/-- The lookup of a key only notes its use. -/
theorem lookUpAcAndCasIds_eq (c : LLDiskCache) (key : Key) :
    ∃ ids, c.lookUpAcAndCasIds key = ({ c with acIdsToFlush := ids },
        (c.db.acByKey key).map fun a => (a.acId, a.casId))
      ∧ (c.db.acByKey key = none → ids = c.acIdsToFlush) := by
  rw [lookUpAcAndCasIds]
  cases h : c.db.acByKey key with
  | none => exact ⟨c.acIdsToFlush, rfl, fun _ => rfl⟩
  | some a => exact ⟨_, rfl, by simp⟩

/-- `find` only counts and notes the use. -/
theorem find_eq (c : LLDiskCache) (blobFiles : Bytes → Option Bytes) (key : Key) :
    ∃ ids hits misses, (c.find blobFiles key).1
      = { c with acIdsToFlush := ids, hitCount := hits, missCount := misses } := by
  obtain ⟨ids, heq, -⟩ := c.lookUpAcAndCasIds_eq key
  rw [find]
  rw [heq]
  cases c.db.acByKey key with
  | none => exact ⟨ids, c.hitCount, c.missCount + 1, rfl⟩
  | some a =>
      simp only [Option.map_some]
      split
      · exact ⟨ids, c.hitCount, c.missCount, rfl⟩
      · exact ⟨ids, c.hitCount, c.missCount + 1, rfl⟩
      · exact ⟨ids, c.hitCount + 1, c.missCount, rfl⟩

/-- What single stamps and the end of a flush preserve, a flush preserves. -/
theorem flushAcUsage_rule {P : LLDiskCache → Prop} (h : P c)
    (hstamp : ∀ c, P c → ∀ now acId, P (c.recordAcUsage now acId))
    (hdone : ∀ c, P c → P { c with acIdsToFlush := [] }) (now : ℕ → ℕ) (forced idle : Bool) :
    P (c.flushAcUsage now forced idle) := by
  have hloop : ∀ (ids : List ℤ) (now : ℕ → ℕ) (c : LLDiskCache), P c → P (flushLoop now ids c) := by
    intro ids
    induction ids with
    | nil => exact fun now c hc => hc
    | cons acId ids ih => exact fun now c hc => ih _ _ (hstamp c hc _ acId)
  rw [flushAcUsage]
  split
  · exact hdone _ (hloop _ _ _ h)
  · exact h

/-- The action that an insertion adds. -/
def newAction (c : LLDiskCache) (now : ℕ) (key : Key) (casId : ℤ) : AcRow :=
  { acId := c.db.newAcId, key, casId, lastAccessed := now }

/-- The cache with a new action. -/
def addAc (c : LLDiskCache) (a : AcRow) : LLDiskCache :=
  { c with db := { c.db with actions := c.db.actions.insert a } }

/-- The cache with a new CAS entry and a new action. -/
def addBoth (c : LLDiskCache) (e : CasRow) (a : AcRow) : LLDiskCache :=
  { c with db := { cas := c.db.cas.insert e, actions := c.db.actions.insert a } }

@[simp] theorem valueRow_casId (casId : ℤ) (digest : Digest) (value : Blob) (n : ℕ) :
    (valueRow casId digest value n).casId = casId := by
  rw [valueRow]
  split <;> rfl

@[simp] theorem valueRow_digest (casId : ℤ) (digest : Digest) (value : Blob) (n : ℕ) :
    (valueRow casId digest value n).digest = digest := by
  rw [valueRow]
  split <;> rfl

@[simp] theorem valueRow_size (casId : ℤ) (digest : Digest) (value : Blob) (n : ℕ) :
    (valueRow casId digest value n).size = some value.size := by
  rw [valueRow]
  split <;> rfl

theorem insertAcEntry_eq {now : ℕ} {key : Key} {casId : ℤ} (h : c.db.acByKey key = none) :
    c.insertAcEntry now key casId = (c.addAc (c.newAction now key casId), .ok ()) := by
  simp [insertAcEntry, Db.insertAc, h, addAc, newAction]

/-- The same after the insertion of a CAS entry. -/
theorem insertAcEntry_after_cas {now : ℕ} {key : Key} {casId : ℤ} (h : c.db.acByKey key = none)
    (cas : Table CasRow.casId) :
    { c with db := { c.db with cas := cas } }.insertAcEntry now key casId
      = ({ c with db := { cas := cas
                          actions := c.db.actions.insert (c.newAction now key casId) } },
        .ok ()) :=
  insertAcEntry_eq (c := { c with db := { c.db with cas := cas } }) h

theorem insertCas_eq (row : CasRow) (h : c.db.casByDigest row.digest = none) :
    c.db.insertCas row = .ok { c.db with cas := c.db.cas.insert row } := by
  simp [Db.insertCas, h]

/-- What `insert` does: nothing for a known key, an action for a known digest, else
both rows.  No constraint is violated. -/
theorem insert_cases (c : LLDiskCache) (now : ℕ) (key : Key) (digest : Digest) (value : Blob)
    (originalSize : Option ℕ) :
    (∃ a ids, c.db.acByKey key = some a
      ∧ c.insert now key digest value originalSize = ({ c with acIdsToFlush := ids }, .ok ()))
    ∨ (∃ e, c.db.acByKey key = none ∧ c.db.casByDigest digest = some e
      ∧ c.insert now key digest value originalSize
        = ((c.addAc (c.newAction now key e.casId)).recordCacheGrowth 0, .ok ()))
    ∨ (c.db.acByKey key = none ∧ c.db.casByDigest digest = none
      ∧ c.insert now key digest value originalSize
        = ((c.addBoth (valueRow c.db.newCasId digest value (originalSize.getD value.size))
            (c.newAction now key c.db.newCasId)).recordCacheGrowth value.size, .ok ())) := by
  obtain ⟨ids, hlook, hids⟩ := c.lookUpAcAndCasIds_eq key
  cases hkey : c.db.acByKey key with
  | some a => exact .inl ⟨a, ids, rfl, by simp [insert, hlook, hkey]⟩
  | none =>
      rw [hids hkey, hkey] at hlook
      cases hdigest : c.db.casByDigest digest with
      | some e =>
          refine .inr (.inl ⟨e, rfl, rfl, ?_⟩)
          simp [insert, hlook, hdigest, insertAcEntry_eq hkey]
      | none =>
          refine .inr (.inr ⟨rfl, rfl, ?_⟩)
          have hcas := insertCas_eq (c := c)
            (valueRow c.db.newCasId digest value (originalSize.getD value.size))
            (by simpa using hdigest)
          simp only [insert, hlook, Option.map_none, hdigest, insertCasEntry, hcas]
          rw [insertAcEntry_after_cas hkey]
          rfl

/-- What `initiate_insert` does, in the same three cases. -/
theorem initiateInsert_cases (c : LLDiskCache) (now : ℕ) (key : Key) (digest : Digest) :
    (∃ a ids, c.db.acByKey key = some a
      ∧ c.initiateInsert now key digest = ({ c with acIdsToFlush := ids }, .ok none))
    ∨ (∃ e, c.db.acByKey key = none ∧ c.db.casByDigest digest = some e
      ∧ c.initiateInsert now key digest
        = (c.addAc (c.newAction now key e.casId), .ok none))
    ∨ (c.db.acByKey key = none ∧ c.db.casByDigest digest = none
      ∧ c.initiateInsert now key digest
        = (c.addBoth { casId := c.db.newCasId, digest, storage := .invalid }
            (c.newAction now key c.db.newCasId), .ok (some c.db.newCasId))) := by
  obtain ⟨ids, hlook, hids⟩ := c.lookUpAcAndCasIds_eq key
  cases hkey : c.db.acByKey key with
  | some a => exact .inl ⟨a, ids, rfl, by simp [initiateInsert, hlook, hkey]⟩
  | none =>
      rw [hids hkey, hkey] at hlook
      cases hdigest : c.db.casByDigest digest with
      | some e =>
          refine .inr (.inl ⟨e, rfl, rfl, ?_⟩)
          simp [initiateInsert, hlook, hdigest, insertAcEntry_eq hkey]
      | none =>
          refine .inr (.inr ⟨rfl, rfl, ?_⟩)
          simp only [initiateInsert, hlook, Option.map_none, hdigest, initiateCasInsert,
            Db.insertCas, Option.isSome_none, Bool.false_eq_true, if_false]
          rw [insertAcEntry_after_cas hkey]
          rfl

theorem integral_addAc (h : c.db.Integral) {now : ℕ} {key : Key} {e : CasRow}
    (hkey : c.db.acByKey key = none) (he : e ∈ c.db.cas) :
    (c.addAc (c.newAction now key e.casId)).db.Integral :=
  h.addAc (Db.not_has_newAcId _) (Db.acByKey_eq_none.mp hkey) ⟨e, he, rfl⟩

theorem integral_addBoth (h : c.db.Integral) {now : ℕ} {key : Key} {e : CasRow}
    (hkey : c.db.acByKey key = none) (hid : e.casId = c.db.newCasId)
    (hdigest : c.db.casByDigest e.digest = none) :
    (c.addBoth e (c.newAction now key c.db.newCasId)).db.Integral := by
  refine h.addBoth ?_ (Db.not_has_newAcId _) (Db.casByDigest_eq_none.mp hdigest)
    (Db.acByKey_eq_none.mp hkey) hid.symm
  rw [hid]
  exact Db.not_has_newCasId _

/-! ## Runs -/

/-- The invariant of all runs: integrity in every directory, and no logged error. -/
structure Sound (c : LLDiskCache) : Prop where
  integral : c.db.Integral
  others : ∀ d, (c.otherDirs d).db.Integral
  log : c.errorLog = []

namespace Sound

theorem evicts (h : c.Sound) {d : Directory} (hev : Evicts c.store d) : (c.withStore d).Sound :=
  ⟨hev.integral h.integral, h.others, h.log⟩

theorem removeAllEntries (h : c.Sound) : c.removeAllEntries.Sound := by
  obtain ⟨d, hev, heq⟩ := removeAllEntries_evicts h.integral
  rw [heq]
  exact h.evicts hev

theorem enforceCacheSizeLimit (h : c.Sound) : c.enforceCacheSizeLimit.Sound := by
  obtain ⟨d, hev, heq⟩ := enforceCacheSizeLimit_evicts h.integral
  rw [heq]
  exact ⟨hev.integral h.integral, h.others, h.log⟩

theorem recordCacheGrowth (h : c.Sound) (size : ℕ) : (c.recordCacheGrowth size).Sound := by
  obtain ⟨d, n, hev, heq⟩ := recordCacheGrowth_evicts h.integral size
  rw [heq]
  exact ⟨hev.integral h.integral, h.others, h.log⟩

theorem insert (h : c.Sound) (now : ℕ) (key : Key) (digest : Digest) (value : Blob)
    (originalSize : Option ℕ) : (c.insert now key digest value originalSize).1.Sound := by
  rcases c.insert_cases now key digest value originalSize with
    ⟨a, ids, -, heq⟩ | ⟨e, hkey, hdigest, heq⟩ | ⟨hkey, hdigest, heq⟩
  · rw [heq]
    exact ⟨h.integral, h.others, h.log⟩
  · rw [heq]
    have hadd : (c.addAc (c.newAction now key e.casId)).Sound :=
      ⟨integral_addAc h.integral hkey (Db.mem_of_casByDigest hdigest).1, h.others, h.log⟩
    exact hadd.recordCacheGrowth 0
  · rw [heq]
    have hadd : (c.addBoth (valueRow c.db.newCasId digest value (originalSize.getD value.size))
        (c.newAction now key c.db.newCasId)).Sound :=
      ⟨integral_addBoth h.integral hkey (valueRow_casId _ _ _ _) (by simpa using hdigest),
        h.others, h.log⟩
    exact hadd.recordCacheGrowth value.size

theorem initiateInsert (h : c.Sound) (now : ℕ) (key : Key) (digest : Digest) :
    (c.initiateInsert now key digest).1.Sound := by
  rcases c.initiateInsert_cases now key digest with
    ⟨a, ids, -, heq⟩ | ⟨e, hkey, hdigest, heq⟩ | ⟨hkey, hdigest, heq⟩
  · rw [heq]
    exact ⟨h.integral, h.others, h.log⟩
  · rw [heq]
    exact ⟨integral_addAc h.integral hkey (Db.mem_of_casByDigest hdigest).1, h.others, h.log⟩
  · rw [heq]
    exact ⟨integral_addBoth h.integral hkey rfl hdigest, h.others, h.log⟩

theorem finishInsert (h : c.Sound) (casId : ℤ) (size originalSize : ℕ) :
    (c.finishInsert casId size originalSize).Sound := by
  have hfinish : (c.finishCasInsert casId size originalSize).Sound :=
    ⟨h.integral.updateCas casId (finishRow_casId _ _) (by intro e; rfl), h.others, h.log⟩
  exact hfinish.recordCacheGrowth size

theorem lookUpAcAndCasIds (h : c.Sound) (key : Key) : (c.lookUpAcAndCasIds key).1.Sound := by
  obtain ⟨ids, heq, -⟩ := c.lookUpAcAndCasIds_eq key
  rw [heq]
  exact ⟨h.integral, h.others, h.log⟩

theorem find (h : c.Sound) (blobFiles : Bytes → Option Bytes) (key : Key) :
    (c.find blobFiles key).1.Sound := by
  obtain ⟨ids, hits, misses, heq⟩ := c.find_eq blobFiles key
  rw [heq]
  exact ⟨h.integral, h.others, h.log⟩

theorem removeEntry (h : c.Sound) (acId : ℤ) : (c.removeEntry acId).1.Sound := by
  obtain ⟨d, hev, heq⟩ := removeEntry_evicts h.integral acId
  rw [heq]
  exact h.evicts hev

theorem flushAcUsage (h : c.Sound) (now : ℕ → ℕ) (forced idle : Bool) :
    (c.flushAcUsage now forced idle).Sound := by
  refine flushAcUsage_rule h (fun c hc now acId => ⟨?_, hc.others, hc.log⟩) (fun c hc => ?_)
    now forced idle
  · exact hc.integral.updateAc acId _ (fun _ => rfl) fun _ => rfl
  · exact ⟨hc.integral, hc.others, hc.log⟩

theorem openDirectory (hothers : ∀ d, (c.otherDirs d).db.Integral) (hlog : c.errorLog = [])
    (sharedCacheDir : Bytes) (config : Config) :
    (openDirectory sharedCacheDir c config).Sound := by
  have hinvalid : ∀ {c : LLDiskCache}, c.Sound → c.removeInvalidEntries.Sound := fun hc =>
    ⟨integral_removeInvalidEntries hc.integral, hc.others, hc.log⟩
  unfold LLDiskCache.openDirectory
  dsimp only
  apply hinvalid
  cases config.startEmpty with
  | true => exact removeAllEntries ⟨.empty, hothers, hlog⟩
  | false => exact ⟨hothers _, hothers, hlog⟩

theorem initializeCache (hothers : ∀ d, (c.otherDirs d).db.Integral) (hlog : c.errorLog = [])
    (sharedCacheDir : Bytes) (config : Config) :
    (initializeCache sharedCacheDir c config).Sound :=
  (openDirectory hothers hlog sharedCacheDir config).enforceCacheSizeLimit

/-- The directories as a restart or a reset finds them. -/
theorem others_update (h : c.Sound) (d : Bytes) :
    (Function.update c.otherDirs c.dir ⟨c.db, c.files⟩ d).db.Integral := by
  by_cases hd : d = c.dir
  · rw [hd, Function.update_self]
    exact h.integral
  · rw [Function.update_of_ne hd]
    exact h.others d

theorem step (h : c.Sound) (env : Env) (op : Op) : (step env c op).Sound := by
  cases op with
  | insert now key digest value originalSize => exact h.insert now key digest value originalSize
  | initiateInsert now key digest => exact h.initiateInsert now key digest
  | finishInsert casId size originalSize => exact h.finishInsert casId size originalSize
  | find key => exact h.find env.blobFiles key
  | lookUpAcId key => exact h.lookUpAcAndCasIds key
  | removeEntry acId => exact h.removeEntry acId
  | clear => exact h.removeAllEntries
  | flushAcUsage now forced idle => exact h.flushAcUsage now forced idle
  | reset config =>
      exact initializeCache
        (c := { c with otherDirs := Function.update c.otherDirs c.dir ⟨c.db, c.files⟩ })
        h.others_update h.log env.sharedCacheDir config
  | restart config =>
      exact initializeCache
        (c := { dir := [], otherDirs := Function.update c.otherDirs c.dir ⟨c.db, c.files⟩ })
        h.others_update rfl env.sharedCacheDir config

end Sound

theorem sound_of_reachable {env : Env} (h : Reachable env c) : c.Sound := by
  refine h.invariant ?_ ?_
  · rintro _ ⟨config, rfl⟩
    exact Sound.initializeCache (fun _ => .empty) rfl _ config
  · rintro c _ op hc - ⟨⟩
    exact hc.step env op

theorem lookUpInternalCasEntry_ok (h : c.db.Integral) {a : AcRow} (ha : a ∈ c.db.actions) :
    ∃ e, c.lookUpInternalCasEntry a.casId = .ok e := by
  obtain ⟨e, he, hid⟩ := h.refers a ha
  exact ⟨e, by simp [lookUpInternalCasEntry, Table.find?_eq_some.mpr ⟨he, hid⟩]⟩

theorem find_ne_rowCount (h : c.db.Integral) (blobFiles : Bytes → Option Bytes) (key : Key) :
    (c.find blobFiles key).2 ≠ .error .rowCount := by
  obtain ⟨ids, heq, -⟩ := c.lookUpAcAndCasIds_eq key
  cases hkey : c.db.acByKey key with
  | none => simp [find, heq, hkey]
  | some a =>
      obtain ⟨e, he⟩ := lookUpInternalCasEntry_ok h (Db.mem_of_acByKey hkey).1
      have hlook : { c with acIdsToFlush := ids }.lookUpInternalCasEntry a.casId = .ok e := he
      simp only [find, heq, hkey, Option.map_some, lookUpCasEntry, hlook]
      cases e.storage with
      | invalid => simp
      | blobFile => cases blobFiles (e.value.getD []) <;> simp
      | inDb => simp
      | inFile => simp

theorem removeEntry_ok (h : c.db.Integral) {a : AcRow} (ha : a ∈ c.db.actions) :
    (c.removeEntry a.acId).2 = .ok () := by
  have hfind : c.db.actions.find? a.acId = some a := Table.find?_eq_some.mpr ⟨ha, rfl⟩
  simp only [removeEntry, getCasIdForAcEntry, hfind]
  obtain ⟨d, n, -, -, heq⟩ := removeAcEntryWithCasEntry_evicts h ha
  rw [heq]
  rfl

/-- **Referential integrity.**  In every reachable cache the two tables refer to each
other, and no single-row query on an id taken from the actions has failed or fails. -/
theorem integrity_of_reachable {env : Env} (h : Reachable env c) :
    c.db.Integral
      ∧ (∀ a ∈ c.db.actions, ∃ e, c.lookUpInternalCasEntry a.casId = .ok e)
      ∧ (∀ key, (c.find env.blobFiles key).2 ≠ .error .rowCount)
      ∧ (∀ a ∈ c.db.actions, (c.removeEntry a.acId).2 = .ok ())
      ∧ c.errorLog = [] := by
  have hs := sound_of_reachable h
  exact ⟨hs.integral, fun a ha => lookUpInternalCasEntry_ok hs.integral ha,
    find_ne_rowCount hs.integral env.blobFiles, fun a ha => removeEntry_ok hs.integral ha, hs.log⟩

/-- An insertion by file that is shared by a second key and overtaken by a sweep, and
one that is abandoned and cleaned up by a reset. -/
def integrityRun : List Op :=
  [.initiateInsert 1 [0] [10], .initiateInsert 2 [1] [10],
    .insert 3 [2] [11] (.ofBytes [7, 7]) none,
    .finishInsert 1 400 900, .initiateInsert 4 [3] [12], .removeEntry 2, .reset {}]

theorem integrity_integrityRun :
    (integrityRun.foldl (step ⟨[], fun _ => none⟩)
      (construct [] (fun _ => {}) { sizeLimit := some 300 })).db.Integral :=
  (integrity_of_reachable (Reachable.calls (.start ⟨_, rfl⟩) integrityRun)).1

end LLDiskCache
end Cradle.Disk
