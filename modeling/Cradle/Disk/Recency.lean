import Cradle.Disk.RoundTrip
import Cradle.Disk.SizeBound

/-!
# The order of eviction

A sweep removes actions in the order of their `last_accessed` stamps.  An insertion is
stamped at once.  A find only puts the row id on the list `ac_ids_to_flush`, unless it is
there already, and the stamp is written when the list is flushed.  So the sweep sees the
order of the uses if no use is waiting when a new key is inserted, and if no key is used
again while another one that was used after it is waiting.

A run keeps the list of all uses.  The clock readings of a run are the values of a
strictly monotone function, and the run counts how many of them it has made.
-/

namespace Cradle.Disk

open Directory LLDiskCache

/-! ## What a sweep removes -/

namespace Db

/-- The size of the CAS entries that the given actions refer to. -/
def totalOf (db : Db) (as : List AcRow) : ℤ :=
  (db.cas.filter fun e => ∃ a ∈ as, a.casId = e.casId).sum CasRow.weight

/-- `db'` has the actions of `db` without the shortest prefix of `order` after which the
total is within the limit. -/
def RemovesShortestPrefix (db db' : Db) (limit : ℕ) (order : List AcRow) : Prop :=
  ∃ n, (∀ a, a ∈ db'.actions ↔ a ∈ order.drop n) ∧ db'.totalCasSize ≤ limit
    ∧ ∀ m < n, limit < db.totalOf (order.drop m)

variable {db : Db}

theorem totalOf_of_forall (h : db.Integral) {as : List AcRow} (hall : ∀ a ∈ db.actions, a ∈ as) :
    db.totalOf as = db.totalCasSize := by
  have hrows : (db.cas.filter fun e => ∃ a ∈ as, a.casId = e.casId) = db.cas := by
    refine Table.ext_rows (List.filter_eq_self.mpr fun e he => ?_)
    obtain ⟨a, ha, hid⟩ := h.referred e he
    exact decide_eq_true ⟨a, hall a ha, hid⟩
  rw [totalOf, hrows]
  rfl

/-- The entries of other actions stay when one entry is removed. -/
theorem totalOf_erase {db' : Db} {i : ℤ} (hcas : db'.cas = db.cas.erase i) {as : List AcRow}
    (h : ∀ a ∈ as, a.casId ≠ i) : db'.totalOf as = db.totalOf as := by
  have hrows : ((db.cas.erase i).filter fun e => ∃ a ∈ as, a.casId = e.casId)
      = db.cas.filter fun e => ∃ a ∈ as, a.casId = e.casId := by
    refine Table.ext_rows ?_
    simp only [Table.erase, Table.filter, List.filter_filter]
    refine List.filter_congr fun e _ => ?_
    by_cases href : ∃ a ∈ as, a.casId = e.casId
    · obtain ⟨a, ha, hid⟩ := href
      have hne : e.casId ≠ i := hid ▸ h a ha
      simp [hne]
    · simp [href]
  simp only [totalOf, hcas, hrows]

end Db

namespace LLDiskCache

variable {c : LLDiskCache}

/-- The loop of a sweep removes a shortest prefix of its snapshot. -/
theorem enforceLoop_shortest {as : List AcRow} (h : c.db.Integral) (hs : Snapshot as c.store)
    (hall : ∀ a ∈ c.db.actions, a ∈ as) (hover : c.sizeLimit < c.db.totalCasSize) :
    c.db.RemovesShortestPrefix (enforceLoop as c.db.totalCasSize c).db c.sizeLimit as := by
  induction as generalizing c with
  | nil =>
      have hzero := totalCasSize_eq_zero h fun a ha => absurd (hall a ha) List.not_mem_nil
      omega
  | cons a as ih =>
      have hfirst : c.sizeLimit < c.db.totalOf (a :: as) := by
        rw [Db.totalOf_of_forall h hall]
        exact hover
      obtain ⟨d, hd, hact, hcas, heq⟩ :=
        enforceLoop_cons as h (hs.present a List.mem_cons_self)
      -- the loop goes on with the rest of the snapshot, on whose entries the sizes agree
      have hsame : ∀ m, d.db.totalOf (as.drop m) = c.db.totalOf (as.drop m) := by
        intro m
        rcases hcas with hcas | ⟨hcas, hlast⟩
        · simp only [Db.totalOf, hcas]
        · refine Db.totalOf_erase hcas fun b hb hbe => ?_
          have hmem : b ∈ as := List.mem_of_mem_drop hb
          have hacId := hlast b (hs.present b (List.mem_cons_of_mem a hmem)) hbe
          exact (List.nodup_cons.mp hs.distinct).1 (List.mem_map.mpr ⟨b, hmem, hacId⟩)
      have hrest : ∀ b, b ∈ d.db.actions ↔ b ∈ as := by
        intro b
        refine ⟨fun hb => ?_, (hs.tail hact).present b⟩
        rw [hact] at hb
        exact mem_tail_of_mem_erase hall hb
      rw [heq]
      by_cases hle : d.db.totalCasSize ≤ c.sizeLimit
      · rw [if_pos hle]
        refine ⟨1, hrest, hle, fun m hm => ?_⟩
        obtain rfl : m = 0 := by omega
        exact hfirst
      · rw [if_neg hle]
        obtain ⟨n, hmem, htotal, hshort⟩ := ih (c := c.withStore d) hd (hs.tail hact)
          (fun b hb => (hrest b).mp hb) (not_le.mp hle)
        refine ⟨n + 1, hmem, htotal, fun m hm => ?_⟩
        cases m with
        | zero => exact hfirst
        | succ m =>
            have hlt := hshort m (by omega)
            rw [db_withStore, hsame m] at hlt
            exact hlt

/-- A sweep removes a shortest prefix of the actions in the order of their stamps. -/
theorem enforceCacheSizeLimit_shortest (h : c.db.Integral) :
    c.db.RemovesShortestPrefix c.enforceCacheSizeLimit.db c.sizeLimit c.db.acLruEntries := by
  have hall : ∀ a ∈ c.db.actions, a ∈ c.db.acLruEntries := fun a ha =>
    (List.mem_insertionSort _).mpr ha
  rw [enforceCacheSizeLimit]
  by_cases hover : c.sizeLimit < c.db.totalCasSize
  · simp only [if_pos hover]
    exact enforceLoop_shortest h (snapshot_acLruEntries c) hall hover
  · simp only [if_neg hover]
    exact ⟨0, fun a => (List.mem_insertionSort _).symm, not_lt.mp hover, fun m hm => by omega⟩

/-- So does the record of a growth that leads to a sweep. -/
theorem recordCacheGrowth_shortest (h : c.db.Integral) {size : ℕ}
    (hsweep : c.sizeLimit / 0x80 < c.bytesInsertedSinceLastSweep + size) :
    c.db.RemovesShortestPrefix (c.recordCacheGrowth size).db c.sizeLimit c.db.acLruEntries := by
  simp only [recordCacheGrowth, if_pos hsweep]
  exact enforceCacheSizeLimit_shortest (c :=
    { c with bytesInsertedSinceLastSweep := c.bytesInsertedSinceLastSweep + size }) h

/-! ## Insertions -/

/-- The cache with the rows that `insert` adds for a new key. -/
def insertRows (c : LLDiskCache) (now : ℕ) (key : Key) (digest : Digest) (value : Blob)
    (originalSize : Option ℕ) : LLDiskCache :=
  match c.db.casByDigest digest with
  | some e => c.addAc (c.newAction now key e.casId)
  | none =>
      c.addBoth (valueRow c.db.newCasId digest value (originalSize.getD value.size))
        (c.newAction now key c.db.newCasId)

/-- The growth that `insert` records for a new key. -/
def growth (c : LLDiskCache) (digest : Digest) (value : Blob) : ℕ :=
  if (c.db.casByDigest digest).isSome then 0 else value.size

/-- The growth leads to a sweep. -/
def Sweeps (c : LLDiskCache) (digest : Digest) (value : Blob) : Prop :=
  c.sizeLimit / 0x80 < c.bytesInsertedSinceLastSweep + c.growth digest value

instance (c : LLDiskCache) (digest : Digest) (value : Blob) : Decidable (c.Sweeps digest value) :=
  inferInstanceAs (Decidable (_ < _))

theorem insert_of_new {key : Key} (hkey : c.db.acByKey key = none) (now : ℕ) (digest : Digest)
    (value : Blob) (originalSize : Option ℕ) :
    (c.insert now key digest value originalSize).1
      = (c.insertRows now key digest value originalSize).recordCacheGrowth
          (c.growth digest value) := by
  rcases c.insert_cases now key digest value originalSize with
    ⟨a, ids, hsome, -⟩ | ⟨e, -, hdigest, heq⟩ | ⟨-, hdigest, heq⟩
  · simp [hkey] at hsome
  · simp [heq, insertRows, growth, hdigest]
  · simp [heq, insertRows, growth, hdigest]

theorem valueRow_storage_ne (casId : ℤ) (digest : Digest) (value : Blob) (n : ℕ) :
    (valueRow casId digest value n).storage ≠ .invalid := by
  rw [valueRow]
  split <;> simp

/-- What adding the rows of a new key does. -/
structure AddsRow (c c' : LLDiskCache) (now : ℕ) (key : Key) : Prop where
  sound : c'.Sound
  actions : ∃ casId, c'.db.actions = c.db.actions.insert (c.newAction now key casId)
  rows : ∀ e ∈ c'.db.cas, e ∈ c.db.cas ∨ e.storage ≠ .invalid
  pending : c'.acIdsToFlush = c.acIdsToFlush
  limit : c'.sizeLimit = c.sizeLimit
  bytes : c'.bytesInsertedSinceLastSweep = c.bytesInsertedSinceLastSweep

theorem addsRow_insertRows (h : c.Sound) {key : Key} (hkey : c.db.acByKey key = none) (now : ℕ)
    (digest : Digest) (value : Blob) (originalSize : Option ℕ) :
    AddsRow c (c.insertRows now key digest value originalSize) now key := by
  rw [insertRows]
  cases hdigest : c.db.casByDigest digest with
  | some e =>
      have hint : (c.addAc (c.newAction now key e.casId)).db.Integral :=
        integral_addAc h.integral hkey (Db.mem_of_casByDigest hdigest).1
      exact ⟨⟨hint, h.others, h.log⟩, ⟨e.casId, rfl⟩, fun x hx => .inl hx, rfl, rfl, rfl⟩
  | none =>
      have hint : (c.addBoth (valueRow c.db.newCasId digest value (originalSize.getD value.size))
          (c.newAction now key c.db.newCasId)).db.Integral :=
        integral_addBoth h.integral hkey (valueRow_casId _ _ _ _) (by simpa using hdigest)
      refine ⟨⟨hint, h.others, h.log⟩, ⟨c.db.newCasId, rfl⟩, fun x hx => ?_, rfl, rfl, rfl⟩
      have hnew : ¬ c.db.cas.Has (valueRow c.db.newCasId digest value
          (originalSize.getD value.size)).casId := by
        rw [valueRow_casId]
        exact Db.not_has_newCasId _
      rcases (Table.mem_insert hnew).mp hx with hx | rfl
      · exact .inl hx
      · exact .inr (valueRow_storage_ne _ _ _ _)

/-- The list with a row id noted as used. -/
def noted (ids : List ℤ) (acId : ℤ) : List ℤ := if acId ∈ ids then ids else ids ++ [acId]

theorem lookUpAcAndCasIds_of_present {key : Key} {a : AcRow} (h : c.db.acByKey key = some a) :
    c.lookUpAcAndCasIds key
      = ({ c with acIdsToFlush := noted c.acIdsToFlush a.acId }, some (a.acId, a.casId)) := by
  simp only [lookUpAcAndCasIds, h, noted]

theorem insert_of_present {key : Key} {a : AcRow} (h : c.db.acByKey key = some a) (now : ℕ)
    (digest : Digest) (value : Blob) (originalSize : Option ℕ) :
    (c.insert now key digest value originalSize).1
      = { c with acIdsToFlush := noted c.acIdsToFlush a.acId } := by
  simp only [insert, lookUpAcAndCasIds_of_present h]

theorem find_of_present {key : Key} {a : AcRow} (h : c.db.acByKey key = some a)
    (blobFiles : Bytes → Option Bytes) :
    ∃ hits misses, (c.find blobFiles key).1 = { c with
      acIdsToFlush := noted c.acIdsToFlush a.acId, hitCount := hits, missCount := misses } := by
  simp only [find, lookUpAcAndCasIds_of_present h]
  split
  · exact ⟨_, _, rfl⟩
  · exact ⟨_, _, rfl⟩
  · exact ⟨_, _, rfl⟩

theorem find_of_absent {key : Key} (h : c.db.acByKey key = none)
    (blobFiles : Bytes → Option Bytes) :
    c.find blobFiles key = ({ c with missCount := c.missCount + 1 }, .ok none) := by
  simp only [find, lookUpAcAndCasIds, h]

/-- Unless it waits before another one, a noted id is the last one of the list. -/
theorem noted_eq_append {ids : List ℤ} {acId : ℤ} (hd : ids.Nodup) (h : acId ∉ ids.dropLast) :
    ∃ rest, acId ∉ rest ∧ noted ids acId = rest ++ [acId]
      ∧ (∀ i, i ≠ acId → (i ∈ ids ↔ i ∈ rest) ∧ (i ∈ ids → ids.idxOf i = rest.idxOf i))
      ∧ (rest ++ [acId]).Nodup := by
  by_cases hmem : acId ∈ ids
  · have hne : ids ≠ [] := List.ne_nil_of_mem hmem
    have heq : ids = ids.dropLast ++ [acId] := by
      have hsplit := List.dropLast_append_getLast hne
      rw [← hsplit] at hmem
      have hlast : acId = ids.getLast hne := by simpa [h] using hmem
      rw [hlast]
      exact hsplit.symm
    refine ⟨ids.dropLast, h, by rw [noted, if_pos hmem]; exact heq, fun i hi => ?_, heq ▸ hd⟩
    generalize ids.dropLast = rest at heq
    subst heq
    have hrest : i ∈ rest ++ [acId] ↔ i ∈ rest := by simp [hi]
    exact ⟨hrest, fun hmem => List.idxOf_append_of_mem (hrest.mp hmem)⟩
  · refine ⟨ids, hmem, by rw [noted, if_neg hmem], fun i _ => ⟨Iff.rfl, fun _ => rfl⟩, ?_⟩
    refine List.nodup_append.mpr ⟨hd, List.nodup_singleton _, fun x hx y hy hxy => hmem ?_⟩
    rw [List.mem_singleton.mp hy] at hxy
    exact hxy ▸ hx

/-- The action with the stamp that a flush of the list gives it. -/
def stamped (now : ℕ → ℕ) (ids : List ℤ) (a : AcRow) : AcRow :=
  if a.acId ∈ ids then { a with lastAccessed := now (ids.idxOf a.acId) } else a

theorem mem_flushLoop {now : ℕ → ℕ} {ids : List ℤ} (hd : ids.Nodup) {b : AcRow} :
    b ∈ (flushLoop now ids c).db.actions ↔ ∃ a ∈ c.db.actions, b = stamped now ids a := by
  induction ids generalizing c now with
  | nil => simp [flushLoop, stamped]
  | cons acId ids ih =>
      obtain ⟨hnot, hd⟩ := List.nodup_cons.mp hd
      simp only [flushLoop, ih hd, recordAcUsage, Table.mem_modify]
      -- the row that is stamped first is not stamped again
      have hstep : ∀ a : AcRow, stamped (fun i => now (i + 1)) ids
          (if a.acId = acId then { a with lastAccessed := now 0 } else a)
            = stamped now (acId :: ids) a := by
        intro a
        by_cases hid : a.acId = acId
        · simp [stamped, hid, hnot]
        · simp [stamped, hid, List.idxOf_cons_ne ids (Ne.symm hid)]
      constructor
      · rintro ⟨-, ⟨a, ha, rfl⟩, rfl⟩
        exact ⟨a, ha, hstep a⟩
      · rintro ⟨a, ha, rfl⟩
        exact ⟨_, ⟨a, ha, rfl⟩, (hstep a).symm⟩

/-- A key that is there is found, if its blob file can be opened. -/
theorem find_hits (h : c.db.Integral) (hvalid : ∀ e ∈ c.db.cas, e.storage ≠ .invalid) {key : Key}
    {a : AcRow} (hkey : c.db.acByKey key = some a) {blobFiles : Bytes → Option Bytes}
    (hopens : ∀ e ∈ c.db.cas, e.casId = a.casId → e.storage = .blobFile →
      blobFiles (e.value.getD []) ≠ none) :
    ∃ entry, (c.find blobFiles key).2 = .ok (some entry) := by
  obtain ⟨ha, rfl⟩ := Db.mem_of_acByKey hkey
  obtain ⟨e, he, hid⟩ := h.refers a ha
  rw [LocalDiskCache.find_of_holds h ⟨he, a, ha, rfl, hid.symm⟩]
  have hrow : c.lookUpInternalCasEntry e.casId = .ok e := by
    simp [lookUpInternalCasEntry, Table.find?_eq_some.mpr ⟨he, rfl⟩]
  simp only [lookUpCasEntry, hrow]
  cases hstorage : e.storage with
  | invalid => exact absurd hstorage (hvalid e he)
  | blobFile =>
      obtain ⟨data, hdata⟩ := Option.ne_none_iff_exists'.mp (hopens e he hid hstorage)
      simp [hdata]
  | inDb => simp
  | inFile => simp

end LLDiskCache

/-! ## Runs -/

/-- The calls whose uses are ordered, and the flush of the poller. -/
inductive UseCall
  | insert (key : Key) (digest : Digest) (value : Blob) (originalSize : Option ℕ)
  | find (key : Key)
  | flushAcUsage (forced idle : Bool)

/-- A cache, the number of clock readings so far, and the used keys, the latest one
first. -/
structure UseSystem where
  cache : LLDiskCache
  ticks : ℕ := 0
  uses : List Key := []

namespace UseSystem

section
variable (env : Env) (clock : ℕ → ℕ)

/-- An insertion reads the clock if it adds an action, and a flush for every row id that
it takes off the list.  A find is a use if it returns an entry. -/
def call (s : UseSystem) : UseCall → UseSystem
  | .insert key digest value originalSize =>
      { cache := (s.cache.insert (clock s.ticks) key digest value originalSize).1
        ticks := if s.cache.db.acByKey key = none then s.ticks + 1 else s.ticks
        uses := key :: s.uses }
  | .find key =>
      { s with
        cache := (s.cache.find env.blobFiles key).1
        uses := match (s.cache.find env.blobFiles key).2 with
          | .ok (some _) => key :: s.uses
          | _ => s.uses }
  | .flushAcUsage forced idle =>
      let cache := s.cache.flushAcUsage (fun i => clock (s.ticks + i)) forced idle
      { s with
        cache
        ticks := s.ticks + (s.cache.acIdsToFlush.length - cache.acIdsToFlush.length) }

/-- No use is waiting when a new key is inserted.  A key that is used again is not waiting
before another one.  The blob file of a key that is looked for can be opened, since an
exception leaves the row id on the list. -/
def Timely (s : UseSystem) : UseCall → Prop
  | .insert key _ _ _ => (s.cache.db.acByKey key = none → s.cache.acIdsToFlush = [])
      ∧ ∀ a ∈ s.cache.db.acByKey key, a.acId ∉ s.cache.acIdsToFlush.dropLast
  | .find key => ∀ a ∈ s.cache.db.acByKey key, a.acId ∉ s.cache.acIdsToFlush.dropLast
      ∧ ∀ e ∈ s.cache.db.cas.rows, e.casId = a.casId → e.storage = .blobFile →
        env.blobFiles (e.value.getD []) ≠ none
  | .flushAcUsage _ _ => True

instance (s : UseSystem) (a : UseCall) : Decidable (s.Timely env a) :=
  match a with
  | .insert _ _ _ _ => inferInstanceAs (Decidable (_ ∧ ∀ _ ∈ _, _))
  | .find _ => inferInstanceAs (Decidable (∀ _ ∈ _, _ ∧ ∀ _ ∈ _, _))
  | .flushAcUsage _ _ => .isTrue trivial

/-- A new cache on an empty disk. -/
def start : Set UseSystem :=
  Set.range fun config => { cache := construct env.sharedCacheDir (fun _ => {}) config }

/-- The states of the runs all of whose calls satisfy `ok`. -/
abbrev Reachable (ok : UseSystem → UseCall → Prop) : UseSystem → Prop :=
  Transition.Reachable (fun s a => some (s.call env clock a)) ok (start env)

/-- The stamp that the action has, or will have if the list is flushed now. -/
def stampOf (s : UseSystem) (a : AcRow) : ℕ :=
  if a.acId ∈ s.cache.acIdsToFlush then clock (s.ticks + s.cache.acIdsToFlush.idxOf a.acId)
  else a.lastAccessed

/-- The stamps are in the order of the uses. -/
structure InOrder (s : UseSystem) : Prop where
  sound : s.cache.Sound
  valid : ∀ e ∈ s.cache.db.cas, e.storage ≠ .invalid
  distinct : s.cache.acIdsToFlush.Nodup
  used : ∀ a ∈ s.cache.db.actions, a.key ∈ s.uses
  past : ∀ a ∈ s.cache.db.actions, a.lastAccessed < clock s.ticks
  order : ∀ a ∈ s.cache.db.actions, ∀ b ∈ s.cache.db.actions,
    s.uses.idxOf b.key < s.uses.idxOf a.key → s.stampOf clock a < s.stampOf clock b

end

variable {env : Env} {clock : ℕ → ℕ} {s s' : UseSystem}

/-- Fewer rows are still in order. -/
theorem InOrder.shrink (h : s.InOrder clock) (hsound : s'.cache.Sound)
    (hcas : ∀ e ∈ s'.cache.db.cas, e ∈ s.cache.db.cas)
    (hact : ∀ a ∈ s'.cache.db.actions, a ∈ s.cache.db.actions)
    (hids : s'.cache.acIdsToFlush = s.cache.acIdsToFlush) (hticks : s'.ticks = s.ticks)
    (huses : s'.uses = s.uses) : s'.InOrder clock where
  sound := hsound
  valid e he := h.valid e (hcas e he)
  distinct := hids ▸ h.distinct
  used a ha := huses ▸ h.used a (hact a ha)
  past a ha := hticks ▸ h.past a (hact a ha)
  order a ha b hb hlt := by
    rw [huses] at hlt
    simp only [stampOf, hids, hticks]
    exact h.order a (hact a ha) b (hact b hb) hlt

/-- The new action has the latest stamp. -/
theorem InOrder.add (h : s.InOrder clock) (hclock : StrictMono clock) {key : Key}
    (hkey : s.cache.db.acByKey key = none) (hids : s.cache.acIdsToFlush = [])
    (hadds : AddsRow s.cache s'.cache (clock s.ticks) key) (hticks : s'.ticks = s.ticks + 1)
    (huses : s'.uses = key :: s.uses) : s'.InOrder clock := by
  obtain ⟨casId, hactions⟩ := hadds.actions
  have hmem : ∀ a, a ∈ s'.cache.db.actions
      ↔ a ∈ s.cache.db.actions ∨ a = s.cache.newAction (clock s.ticks) key casId := by
    intro a
    rw [hactions]
    exact Table.mem_insert (Db.not_has_newAcId _)
  have hold : ∀ a ∈ s.cache.db.actions, a.key ≠ key := Db.acByKey_eq_none.mp hkey
  have hids' : s'.cache.acIdsToFlush = [] := hadds.pending.trans hids
  have hstamp : ∀ a, s'.stampOf clock a = a.lastAccessed := by
    intro a
    simp [stampOf, hids']
  refine ⟨hadds.sound, fun e he => ?_, ?_, fun a ha => ?_, fun a ha => ?_,
    fun a ha b hb hlt => ?_⟩
  · rcases hadds.rows e he with he | hvalid
    · exact h.valid e he
    · exact hvalid
  · rw [hids']
    exact List.nodup_nil
  · rw [huses]
    rcases (hmem a).mp ha with ha | rfl
    · exact List.mem_cons_of_mem _ (h.used a ha)
    · exact List.mem_cons_self
  · rw [hticks]
    have hnext : clock s.ticks < clock (s.ticks + 1) := hclock (Nat.lt_succ_self _)
    rcases (hmem a).mp ha with ha | rfl
    · exact (h.past a ha).trans hnext
    · exact hnext
  · rw [huses] at hlt
    rw [hstamp, hstamp]
    rcases (hmem a).mp ha with ha | rfl
    · rcases (hmem b).mp hb with hb | rfl
      · rw [List.idxOf_cons_ne _ (hold a ha).symm, List.idxOf_cons_ne _ (hold b hb).symm] at hlt
        have hold := h.order a ha b hb (Nat.lt_of_succ_lt_succ hlt)
        simpa [stampOf, hids] using hold
      · exact h.past a ha
    · -- nothing is used more recently than the new key
      simp [newAction] at hlt

/-- Using a key again makes its stamp the latest one. -/
theorem InOrder.touch (h : s.InOrder clock) (hclock : StrictMono clock) {a : AcRow}
    (ha : a ∈ s.cache.db.actions) (hlast : a.acId ∉ s.cache.acIdsToFlush.dropLast)
    (hsound : s'.cache.Sound) (hdb : s'.cache.db = s.cache.db)
    (hids : s'.cache.acIdsToFlush = noted s.cache.acIdsToFlush a.acId)
    (hticks : s'.ticks = s.ticks) (huses : s'.uses = a.key :: s.uses) : s'.InOrder clock := by
  obtain ⟨rest, hnot, hnoted, hsame, hd⟩ := noted_eq_append h.distinct hlast
  rw [hnoted] at hids
  have hother : ∀ b, b.acId ≠ a.acId → s'.stampOf clock b = s.stampOf clock b := by
    intro b hb
    obtain ⟨hmem, hidx⟩ := hsame b.acId hb
    simp only [stampOf, hids, hticks, List.mem_append, List.mem_singleton, hb, or_false, ← hmem]
    by_cases hwaits : b.acId ∈ s.cache.acIdsToFlush
    · rw [if_pos hwaits, if_pos hwaits, hidx hwaits, List.idxOf_append_of_mem (hmem.mp hwaits)]
    · rw [if_neg hwaits, if_neg hwaits]
  have hself : s'.stampOf clock a = clock (s.ticks + rest.length) := by
    simp [stampOf, hids, hticks, List.idxOf_append_of_notMem hnot]
  have hbelow : ∀ b ∈ s.cache.db.actions, b.acId ≠ a.acId →
      s.stampOf clock b < clock (s.ticks + rest.length) := by
    intro b hb hne
    obtain ⟨hmem, hidx⟩ := hsame b.acId hne
    rw [stampOf]
    split
    · next hwaits =>
        have hlt := List.idxOf_lt_length_of_mem (hmem.mp hwaits)
        rw [hidx hwaits]
        exact hclock (by omega)
    · exact (h.past b hb).trans_le (hclock.monotone (by omega))
  have hrow : ∀ b ∈ s.cache.db.actions, b.key = a.key → b = a :=
    fun b hb hkey => h.sound.integral.keys b hb a ha hkey
  refine ⟨hsound, hdb ▸ h.valid, hids ▸ hd, fun b hb => ?_, fun b hb => ?_,
    fun x hx y hy hlt => ?_⟩
  · rw [hdb] at hb
    rw [huses]
    exact List.mem_cons_of_mem _ (h.used b hb)
  · rw [hdb] at hb
    rw [hticks]
    exact h.past b hb
  · rw [hdb] at hx hy
    rw [huses] at hlt
    by_cases hxa : x.key = a.key
    · rw [hxa, List.idxOf_cons_self] at hlt
      omega
    · have hxid : x.acId ≠ a.acId := fun hid => hxa (congrArg _ (Table.eq_of_key_eq hx ha hid))
      rw [hother x hxid]
      by_cases hya : y.key = a.key
      · rw [hrow y hy hya, hself]
        exact hbelow x hx hxid
      · have hyid : y.acId ≠ a.acId := fun hid => hya (congrArg _ (Table.eq_of_key_eq hy ha hid))
        rw [hother y hyid]
        rw [List.idxOf_cons_ne _ (Ne.symm hxa), List.idxOf_cons_ne _ (Ne.symm hya)] at hlt
        exact h.order x hx y hy (Nat.lt_of_succ_lt_succ hlt)

/-- A flush writes the stamps that the actions were due. -/
theorem InOrder.flush (h : s.InOrder clock) (hclock : StrictMono clock) (hsound : s'.cache.Sound)
    (hcas : s'.cache.db.cas = s.cache.db.cas)
    (hact : ∀ b, b ∈ s'.cache.db.actions ↔ ∃ a ∈ s.cache.db.actions,
      b = stamped (fun i => clock (s.ticks + i)) s.cache.acIdsToFlush a)
    (hids : s'.cache.acIdsToFlush = [])
    (hticks : s'.ticks = s.ticks + s.cache.acIdsToFlush.length) (huses : s'.uses = s.uses) :
    s'.InOrder clock := by
  have hkey : ∀ a, (stamped (fun i => clock (s.ticks + i)) s.cache.acIdsToFlush a).key = a.key := by
    intro a
    rw [stamped]
    split <;> rfl
  have hstamp : ∀ a, s'.stampOf clock (stamped (fun i => clock (s.ticks + i))
      s.cache.acIdsToFlush a) = s.stampOf clock a := by
    intro a
    simp only [stampOf, hids, List.not_mem_nil, if_false, stamped]
    split <;> rfl
  refine ⟨hsound, hcas ▸ h.valid, hids ▸ List.nodup_nil, fun b hb => ?_, fun b hb => ?_,
    fun x hx y hy hlt => ?_⟩
  · obtain ⟨a, ha, rfl⟩ := (hact b).mp hb
    rw [hkey, huses]
    exact h.used a ha
  · obtain ⟨a, ha, rfl⟩ := (hact b).mp hb
    rw [hticks]
    rw [stamped]
    split
    · next hwaits =>
        have hlt := List.idxOf_lt_length_of_mem hwaits
        exact hclock (by omega)
    · exact (h.past a ha).trans_le (hclock.monotone (by omega))
  · obtain ⟨a, ha, rfl⟩ := (hact x).mp hx
    obtain ⟨b, hb, rfl⟩ := (hact y).mp hy
    rw [hkey, hkey, huses] at hlt
    rw [hstamp, hstamp]
    exact h.order a ha b hb hlt

theorem inOrder_start (hs : s ∈ start env) : s.InOrder clock := by
  obtain ⟨config, rfl⟩ := hs
  obtain ⟨hsound, hcas, -⟩ := WriterSystem.start_empty env config
  have hact : ∀ a, a ∉ (construct env.sharedCacheDir (fun _ => {}) config).db.actions := by
    intro a ha
    obtain ⟨e, he, -⟩ := hsound.integral.refers a ha
    exact hcas e he
  have hids : (construct env.sharedCacheDir (fun _ => {}) config).acIdsToFlush = [] := by
    have hopen : (openDirectory env.sharedCacheDir { dir := [], otherDirs := fun _ => {} }
        config).Sound := Sound.openDirectory (fun _ => .empty) rfl _ config
    obtain ⟨d, -, heq⟩ := enforceCacheSizeLimit_evicts hopen.integral
    rw [construct, initializeCache, heq]
    rw [openDirectory]
    cases config.startEmpty <;> rfl
  refine ⟨hsound, fun e he => absurd he (hcas e), ?_, fun a ha => absurd ha (hact a),
    fun a ha => absurd ha (hact a), fun a ha => absurd ha (hact a)⟩
  rw [hids]
  exact List.nodup_nil

/-- The state when a new key has been inserted, before the growth is recorded. -/
theorem InOrder.insertRows (h : s.InOrder clock) (hclock : StrictMono clock) {key : Key}
    (hkey : s.cache.db.acByKey key = none) (hids : s.cache.acIdsToFlush = []) (digest : Digest)
    (value : Blob) (originalSize : Option ℕ) :
    InOrder clock { cache := s.cache.insertRows (clock s.ticks) key digest value originalSize,
                    ticks := s.ticks + 1, uses := key :: s.uses } :=
  h.add hclock hkey hids (addsRow_insertRows h.sound hkey _ digest value originalSize) rfl rfl

theorem inOrder_call (hclock : StrictMono clock) (h : s.InOrder clock) {a : UseCall}
    (hok : s.Timely env a) : (s.call env clock a).InOrder clock := by
  cases a with
  | insert key digest value originalSize =>
      dsimp only [call]
      have hsound := h.sound.insert (clock s.ticks) key digest value originalSize
      cases hkey : s.cache.db.acByKey key with
      | none =>
          have hids : s.cache.acIdsToFlush = [] := hok.1 hkey
          have hrows := h.insertRows hclock hkey hids digest value originalSize
          obtain ⟨d, n, hev, heq⟩ := recordCacheGrowth_evicts hrows.sound.integral
            (s.cache.growth digest value)
          rw [insert_of_new hkey] at hsound ⊢
          rw [heq] at hsound ⊢
          refine hrows.shrink hsound ?_ ?_ rfl (by simp) rfl
          · exact (WriterSystem.shrinks_of_evicts hev).rows
          · exact hev.actions_subset
      | some a =>
          obtain ⟨ha, rfl⟩ := Db.mem_of_acByKey hkey
          have hlast : a.acId ∉ s.cache.acIdsToFlush.dropLast := hok.2 a hkey
          rw [insert_of_present hkey] at hsound ⊢
          exact h.touch hclock ha hlast hsound rfl rfl (by simp) rfl
  | find key =>
      dsimp only [call]
      have hsound := h.sound.find env.blobFiles key
      cases hkey : s.cache.db.acByKey key with
      | none =>
          rw [find_of_absent hkey] at hsound ⊢
          exact h.shrink hsound (fun _ he => he) (fun _ ha => ha) rfl rfl rfl
      | some a =>
          obtain ⟨hlast, hopens⟩ := hok a hkey
          obtain ⟨entry, hhit⟩ := find_hits h.sound.integral h.valid hkey hopens
          obtain ⟨hits, misses, heq⟩ := find_of_present hkey env.blobFiles
          obtain ⟨ha, rfl⟩ := Db.mem_of_acByKey hkey
          rw [heq] at hsound ⊢
          rw [hhit]
          exact h.touch hclock ha hlast hsound rfl rfl rfl rfl
  | flushAcUsage forced idle =>
      dsimp only [call]
      have hsound := h.sound.flushAcUsage (fun i => clock (s.ticks + i)) forced idle
      have hcas : (s.cache.flushAcUsage (fun i => clock (s.ticks + i)) forced idle).db.cas
          = s.cache.db.cas :=
        flushAcUsage_rule (P := fun c => c.db.cas = s.cache.db.cas) rfl (fun _ hc _ _ => hc)
          (fun _ hc => hc) _ forced idle
      rw [LLDiskCache.flushAcUsage] at hsound hcas ⊢
      split at hsound
      · next hflush =>
          simp only [if_pos hflush] at hcas ⊢
          refine h.flush hclock hsound hcas (fun b => ?_) rfl (by simp) rfl
          exact mem_flushLoop h.distinct
      · next hflush =>
          simp only [if_neg hflush]
          exact h.shrink hsound (fun _ he => he) (fun _ ha => ha) rfl (by simp) rfl

theorem inOrder_of_reachable (hclock : StrictMono clock)
    (h : Reachable env clock (Timely env) s) : s.InOrder clock := by
  refine h.invariant (fun _ hs => inOrder_start hs) ?_
  rintro s _ a hi hok ⟨⟩
  exact inOrder_call hclock hi hok

/-! ## The order of a sweep -/

/-- The actions in the order of the most recent use of their keys. -/
def recencyOrder (uses : List Key) (rows : List AcRow) : List AcRow :=
  rows.insertionSort fun a b => uses.idxOf b.key ≤ uses.idxOf a.key

/-- When no use is waiting, the order of the stamps is the order of the uses. -/
theorem InOrder.acLruEntries_eq (h : s.InOrder clock) (hids : s.cache.acIdsToFlush = []) :
    s.cache.db.acLruEntries = recencyOrder s.uses s.cache.db.actions.rows := by
  have hstamp : ∀ a, s.stampOf clock a = a.lastAccessed := by
    intro a
    simp [stampOf, hids]
  have hagree : ∀ a ∈ s.cache.db.actions, ∀ b ∈ s.cache.db.actions,
      a.lastAccessed ≤ b.lastAccessed ↔ s.uses.idxOf b.key ≤ s.uses.idxOf a.key := by
    intro a ha b hb
    have hab := h.order a ha b hb
    have hba := h.order b hb a ha
    rw [hstamp, hstamp] at hab hba
    constructor
    · intro hle
      by_contra hlt
      have := hba (not_le.mp hlt)
      omega
    · intro hle
      rcases Nat.lt_or_eq_of_le hle with hlt | heq
      · exact (hab hlt).le
      · have hkeys := (List.idxOf_inj (h.used b hb)).mp heq
        rw [h.sound.integral.keys b hb a ha hkeys]
  have hsorted := List.map_insertionSort (fun a b : AcRow => a.lastAccessed ≤ b.lastAccessed)
    (fun a b : AcRow => s.uses.idxOf b.key ≤ s.uses.idxOf a.key) id s.cache.db.actions.rows hagree
  simpa [Db.acLruEntries, recencyOrder] using hsorted

/-- In a recency order, what is left has been used more recently than what is removed. -/
theorem recencyOrder_drop {uses : List Key} {rows : List AcRow} {n : ℕ} {a b : AcRow}
    (ha : a ∈ rows) (hleft : a ∉ (recencyOrder uses rows).drop n)
    (hb : b ∈ (recencyOrder uses rows).drop n) : uses.idxOf b.key ≤ uses.idxOf a.key := by
  have hsorted : (recencyOrder uses rows).Pairwise
      fun a b => uses.idxOf b.key ≤ uses.idxOf a.key := by
    have : Std.Total fun a b : AcRow => uses.idxOf b.key ≤ uses.idxOf a.key :=
      ⟨fun a b => Nat.le_total _ _⟩
    have : IsTrans AcRow fun a b => uses.idxOf b.key ≤ uses.idxOf a.key :=
      ⟨fun a b c hab hbc => hbc.trans hab⟩
    exact List.pairwise_insertionSort _ rows
  have hmem : a ∈ recencyOrder uses rows := (List.mem_insertionSort _).mpr ha
  rw [← List.take_append_drop n (recencyOrder uses rows)] at hsorted hmem
  rcases List.mem_append.mp hmem with htake | hdrop
  · exact (List.pairwise_append.mp hsorted).2.2 a htake b hb
  · exact absurd hdrop hleft

/-- The insertion of a new key has removed a shortest prefix of the actions, the new one
included, in the order of their most recent use; so no entry is evicted before another one
whose last use is older. -/
def EvictsByRecency (clock : ℕ → ℕ) (s : UseSystem) (key : Key) (digest : Digest) (value : Blob)
    (originalSize : Option ℕ) (s' : UseSystem) : Prop :=
  let before := (s.cache.insertRows (clock s.ticks) key digest value originalSize).db
  before.RemovesShortestPrefix s'.cache.db s.cache.sizeLimit
      (recencyOrder s'.uses before.actions.rows)
    ∧ ∀ a ∈ before.actions, ∀ b ∈ before.actions, s'.uses.idxOf a.key < s'.uses.idxOf b.key →
      a ∉ s'.cache.db.actions → b ∉ s'.cache.db.actions

/-- **Eviction by recency.**  In a timely run, an insertion that makes a sweep evicts in the
order of the most recent use. -/
theorem evictsByRecency_of_timely (hclock : StrictMono clock)
    (h : Reachable env clock (Timely env) s) {key : Key} {digest : Digest} {value : Blob}
    {originalSize : Option ℕ} (hok : s.Timely env (.insert key digest value originalSize))
    (hnew : s.cache.db.acByKey key = none) (hsweep : s.cache.Sweeps digest value) :
    s.EvictsByRecency clock key digest value originalSize
      (s.call env clock (.insert key digest value originalSize)) := by
  have hi := inOrder_of_reachable hclock h
  have hids : s.cache.acIdsToFlush = [] := hok.1 hnew
  have hrows := hi.insertRows hclock hnew hids digest value originalSize
  have hadds := addsRow_insertRows hi.sound hnew (clock s.ticks) digest value originalSize
  have hshort : (s.cache.insertRows (clock s.ticks) key digest value
      originalSize).db.RemovesShortestPrefix
        (s.call env clock (.insert key digest value originalSize)).cache.db s.cache.sizeLimit
        (recencyOrder (key :: s.uses) (s.cache.insertRows (clock s.ticks) key digest value
          originalSize).db.actions.rows) := by
    have horder := hrows.acLruEntries_eq (hadds.pending.trans hids)
    rw [call, insert_of_new hnew, ← horder, ← hadds.limit]
    refine recordCacheGrowth_shortest hrows.sound.integral ?_
    rw [hadds.limit, hadds.bytes]
    exact hsweep
  refine ⟨hshort, fun a ha b hb hlt hgone hleft => ?_⟩
  obtain ⟨n, hmem, -⟩ := hshort
  have hle := recencyOrder_drop (n := n) ha (fun hdrop => hgone ((hmem a).mpr hdrop))
    ((hmem b).mp hleft)
  exact absurd hlt (not_lt.mpr hle)

/-- A new cache with a limit of two bytes. -/
def twoBytes : UseSystem := { cache := construct [] (fun _ => {}) { sizeLimit := some 2 } }

/-- Two entries fill the cache, and the older one is found. -/
def olderFound : List UseCall :=
  [.insert [0] [10] (.ofBytes [7]) none, .insert [1] [11] (.ofBytes [8]) none, .find [0]]

theorem evictsByRecency_flushed :
    let s := (olderFound ++ [UseCall.flushAcUsage true false]).foldl
      (call ⟨[], fun _ => none⟩ id) twoBytes
    s.EvictsByRecency id [2] [12] (.ofBytes [9]) none
      (s.call ⟨[], fun _ => none⟩ id (.insert [2] [12] (.ofBytes [9]) none)) := by
  intro s
  have hstart : twoBytes ∈ start ⟨[], fun _ => none⟩ := ⟨_, rfl⟩
  have hmeet : Transition.StepsMeet (fun s a => some (call ⟨[], fun _ => none⟩ id s a))
      (Timely ⟨[], fun _ => none⟩) twoBytes (olderFound ++ [UseCall.flushAcUsage true false]) := by
    decide
  have hreach : Reachable ⟨[], fun _ => none⟩ id (Timely ⟨[], fun _ => none⟩) s :=
    .run_of_stepsMeet (.start hstart) hmeet (Transition.run_some _ _ _)
  refine evictsByRecency_of_timely strictMono_id hreach ?_ ?_ ?_
  · decide
  · decide
  · decide

/-- Without the flush the entry that was found is evicted, and the other one stays. -/
theorem not_evictsByRecency_unflushed :
    ¬ ∀ (env : Env) (clock : ℕ → ℕ), StrictMono clock →
      ∀ s, Reachable env clock (fun _ _ => True) s → ∀ key digest value originalSize,
        s.cache.db.acByKey key = none → s.cache.Sweeps digest value →
          s.EvictsByRecency clock key digest value originalSize
            (s.call env clock (.insert key digest value originalSize)) := by
  intro h
  have hstart : twoBytes ∈ start ⟨[], fun _ => none⟩ := ⟨_, rfl⟩
  have hreach : Reachable ⟨[], fun _ => none⟩ id (fun _ _ => True)
      (olderFound.foldl (call ⟨[], fun _ => none⟩ id) twoBytes) :=
    .run (.start hstart) (Transition.run_some _ _ _)
  have hbad := (h _ id strictMono_id _ hreach [2] [12] (.ofBytes [9]) none (by decide)
    (by decide)).2 ⟨1, [0], 1, 0⟩ (by decide) ⟨2, [1], 2, 1⟩ (by decide) (by decide) (by decide)
  exact hbad (by decide)

end UseSystem
end Cradle.Disk
