import Cradle.Disk.Integrity

/-!
# The size bound of the disk cache

The cache may outgrow its limit by what was inserted since the last sweep, and a
sweep is made as soon as that exceeds 1/128 of the limit.  A sweep works on a running
total; since integrity makes every removal succeed, the running total is the real one,
and when the loop gets to its end there is nothing left.
-/

namespace Cradle.Disk.LLDiskCache

open Directory

variable {c : LLDiskCache}

theorem weight_nonneg (e : CasRow) : 0 ≤ e.weight := by
  simp only [CasRow.weight]
  omega

/-- A cache without actions holds nothing. -/
theorem totalCasSize_eq_zero {db : Db} (h : db.Integral) (hact : ∀ a, a ∉ db.actions) :
    db.totalCasSize = 0 := by
  have hcas : db.cas.rows = [] := by
    refine List.eq_nil_iff_forall_not_mem.mpr fun e he => ?_
    obtain ⟨a, ha, -⟩ := h.referred e he
    exact hact a ha
  simp [Db.totalCasSize, Table.sum, hcas]

theorem totalCasSize_dropBoth {d : Directory} {a : AcRow} {e : CasRow} (he : e ∈ d.db.cas) :
    (d.dropBoth a e).db.totalCasSize = d.db.totalCasSize - e.weight :=
  Table.sum_erase (Table.find?_eq_some.mpr ⟨he, rfl⟩)

theorem totalCasSize_le_of_evicts {d d' : Directory} (h : Evicts d d') :
    d'.db.totalCasSize ≤ d.db.totalCasSize := by
  induction h with
  | refl => exact le_refl _
  | shared _ _ _ _ _ ih => exact ih
  | @last d d' a e _ he _ _ _ ih =>
      have hdrop := totalCasSize_dropBoth (a := a) he
      have := weight_nonneg e
      omega

/-- Without the first action of a list that has them all, the actions are in its tail. -/
theorem mem_tail_of_mem_erase {actions : Table AcRow.acId} {a b : AcRow} {as : List AcRow}
    (hall : ∀ b ∈ actions, b ∈ a :: as) (hb : b ∈ actions.erase a.acId) : b ∈ as := by
  obtain ⟨hb, hne⟩ := Table.mem_erase.mp hb
  rcases List.mem_cons.mp (hall b hb) with rfl | hb
  · exact absurd rfl hne
  · exact hb

/-- One iteration of the loop, started with the real total: the first action goes, with its
entry if no other action needs it, and the running total is again the real one. -/
theorem enforceLoop_cons {a : AcRow} (as : List AcRow) (h : c.db.Integral)
    (ha : a ∈ c.db.actions) :
    ∃ d : Directory, d.db.Integral ∧ d.db.actions = c.db.actions.erase a.acId
      ∧ (d.db.cas = c.db.cas
        ∨ d.db.cas = c.db.cas.erase a.casId
          ∧ ∀ b ∈ c.db.actions, b.casId = a.casId → b.acId = a.acId)
      ∧ enforceLoop (a :: as) c.db.totalCasSize c
        = if d.db.totalCasSize ≤ c.sizeLimit then c.withStore d
          else enforceLoop as d.db.totalCasSize (c.withStore d) := by
  rcases removeAcEntryWithCasEntry_cases h ha with
    ⟨b, hb, hne, hid, heq⟩ | ⟨e, he, hid, hlast, heq⟩
  · have htotal : (c.store.dropAc a).db.totalCasSize = c.db.totalCasSize - 0 := by
      rw [sub_zero]
      rfl
    refine ⟨c.store.dropAc a, integral_dropAc h ha hb hne hid, rfl, .inl rfl, ?_⟩
    simp only [enforceLoop, heq, ← htotal]
    rfl
  · have htotal : (c.store.dropBoth a e).db.totalCasSize = c.db.totalCasSize - e.weight :=
      totalCasSize_dropBoth (d := c.store) he
    have hcas : (c.store.dropBoth a e).db.cas = c.db.cas.erase a.casId := by
      rw [← hid]
      rfl
    refine ⟨c.store.dropBoth a e, integral_dropBoth h ha hid hlast, rfl, .inr ⟨hcas, hlast⟩, ?_⟩
    simp only [enforceLoop, heq, ← htotal]
    rfl

/-- The loop of a sweep, started with the real total on a snapshot of all actions, ends
below the limit. -/
theorem totalCasSize_enforceLoop_le {as : List AcRow} (h : c.db.Integral)
    (hs : Snapshot as c.store) (hall : ∀ a ∈ c.db.actions, a ∈ as) :
    (enforceLoop as c.db.totalCasSize c).db.totalCasSize ≤ c.sizeLimit := by
  induction as generalizing c with
  | nil =>
      have hzero := totalCasSize_eq_zero h fun a ha => absurd (hall a ha) List.not_mem_nil
      simp only [enforceLoop, hzero]
      omega
  | cons a as ih =>
      obtain ⟨d, hd, hact, -, heq⟩ := enforceLoop_cons as h (hs.present a List.mem_cons_self)
      rw [heq]
      split
      · next hle => exact hle
      · refine ih (c := c.withStore d) hd (hs.tail hact) fun b hb => ?_
        rw [db_withStore, hact] at hb
        exact mem_tail_of_mem_erase hall hb

/-- After a sweep the cache is within its limit. -/
theorem totalCasSize_enforceCacheSizeLimit_le (h : c.db.Integral) :
    c.enforceCacheSizeLimit.db.totalCasSize ≤ c.sizeLimit := by
  simp only [enforceCacheSizeLimit]
  split
  · exact totalCasSize_enforceLoop_le h (snapshot_acLruEntries c)
      fun a ha => (List.mem_insertionSort _).mpr ha
  · next hle => exact not_lt.mp hle

/-- The size invariant. -/
structure Bounded (c : LLDiskCache) : Prop where
  total : c.db.totalCasSize ≤ c.sizeLimit + c.bytesInsertedSinceLastSweep
  growth : c.bytesInsertedSinceLastSweep ≤ c.sizeLimit / 0x80

theorem bounded_enforceCacheSizeLimit (h : c.db.Integral) : c.enforceCacheSizeLimit.Bounded := by
  have hle := totalCasSize_enforceCacheSizeLimit_le h
  obtain ⟨d, -, heq⟩ := enforceCacheSizeLimit_evicts h
  rw [heq] at hle ⊢
  refine ⟨?_, Nat.zero_le _⟩
  simp only [withStore] at hle ⊢
  omega

/-- Recording the growth restores the bound, when the total has grown by no more than
what is recorded. -/
theorem bounded_recordCacheGrowth (h : c.db.Integral) (size : ℕ)
    (htotal : c.db.totalCasSize ≤ c.sizeLimit + c.bytesInsertedSinceLastSweep + size) :
    (c.recordCacheGrowth size).Bounded := by
  simp only [recordCacheGrowth]
  split
  · exact bounded_enforceCacheSizeLimit h
  · next hle =>
      refine ⟨?_, not_lt.mp hle⟩
      push_cast
      omega

theorem Bounded.evicts (h : c.Bounded) {d : Directory} (hev : Evicts c.store d) :
    (c.withStore d).Bounded :=
  ⟨(totalCasSize_le_of_evicts hev).trans h.total, h.growth⟩

/-! ## The operations -/

theorem totalCasSize_addBoth {e : CasRow} {a : AcRow} (he : e.casId = c.db.newCasId) :
    (c.addBoth e a).db.totalCasSize = c.db.totalCasSize + e.weight := by
  refine Table.sum_insert ?_
  rw [he]
  exact Db.not_has_newCasId _

/-- Finishing an insertion adds at most the size it reports, whatever row it hits. -/
theorem totalCasSize_finishCasInsert_le (casId : ℤ) (size originalSize : ℕ) :
    (c.finishCasInsert casId size originalSize).db.totalCasSize ≤ c.db.totalCasSize + size := by
  simp only [finishCasInsert, Db.totalCasSize]
  cases hfind : c.db.cas.find? casId with
  | none =>
      rw [Table.modify_of_not_has (Table.not_has.mpr hfind)]
      omega
  | some e =>
      rw [Table.sum_modify hfind]
      have := weight_nonneg e
      simp only [CasRow.weight, finishRow, Option.getD_some] at this ⊢
      omega

namespace Bounded

theorem insert (h : c.Bounded) (hi : c.db.Integral) (now : ℕ) (key : Key) (digest : Digest)
    (value : Blob) (originalSize : Option ℕ) :
    (c.insert now key digest value originalSize).1.Bounded := by
  rcases c.insert_cases now key digest value originalSize with
    ⟨a, ids, -, heq⟩ | ⟨e, hkey, hdigest, heq⟩ | ⟨hkey, hdigest, heq⟩
  · rw [heq]
    exact ⟨h.total, h.growth⟩
  · rw [heq]
    refine bounded_recordCacheGrowth
      (integral_addAc hi hkey (Db.mem_of_casByDigest hdigest).1) 0 ?_
    have htotal := h.total
    simp only [addAc, Db.totalCasSize] at htotal ⊢
    omega
  · rw [heq]
    refine bounded_recordCacheGrowth
      (integral_addBoth hi hkey (valueRow_casId _ _ _ _) (by simpa using hdigest)) value.size ?_
    rw [totalCasSize_addBoth (valueRow_casId _ _ _ _)]
    have := h.total
    simp only [CasRow.weight, valueRow_size, Option.getD_some, addBoth]
    omega

theorem initiateInsert (h : c.Bounded) (now : ℕ) (key : Key) (digest : Digest) :
    (c.initiateInsert now key digest).1.Bounded := by
  rcases c.initiateInsert_cases now key digest with
    ⟨a, ids, -, heq⟩ | ⟨e, -, -, heq⟩ | ⟨-, -, heq⟩
  · rw [heq]
    exact ⟨h.total, h.growth⟩
  · rw [heq]
    exact ⟨h.total, h.growth⟩
  · rw [heq]
    refine ⟨?_, h.growth⟩
    rw [totalCasSize_addBoth rfl]
    simpa [CasRow.weight, addBoth] using h.total

theorem finishInsert (h : c.Bounded) (hi : c.db.Integral) (casId : ℤ) (size originalSize : ℕ) :
    (c.finishInsert casId size originalSize).Bounded := by
  refine bounded_recordCacheGrowth (hi.updateCas casId (finishRow_casId _ _) (by intro e; rfl))
    size ?_
  have hle := totalCasSize_finishCasInsert_le (c := c) casId size originalSize
  have := h.total
  simp only [finishCasInsert] at hle ⊢
  omega

theorem lookUpAcAndCasIds (h : c.Bounded) (key : Key) : (c.lookUpAcAndCasIds key).1.Bounded := by
  obtain ⟨ids, heq, -⟩ := c.lookUpAcAndCasIds_eq key
  rw [heq]
  exact ⟨h.total, h.growth⟩

theorem find (h : c.Bounded) (blobFiles : Bytes → Option Bytes) (key : Key) :
    (c.find blobFiles key).1.Bounded := by
  obtain ⟨ids, hits, misses, heq⟩ := c.find_eq blobFiles key
  rw [heq]
  exact ⟨h.total, h.growth⟩

theorem removeEntry (h : c.Bounded) (hi : c.db.Integral) (acId : ℤ) :
    (c.removeEntry acId).1.Bounded := by
  obtain ⟨d, hev, heq⟩ := removeEntry_evicts hi acId
  rw [heq]
  exact h.evicts hev

theorem flushAcUsage (h : c.Bounded) (now : ℕ → ℕ) (forced idle : Bool) :
    (c.flushAcUsage now forced idle).Bounded :=
  flushAcUsage_rule h (fun _ hc _ _ => ⟨hc.total, hc.growth⟩) (fun _ hc => ⟨hc.total, hc.growth⟩)
    now forced idle

theorem step (h : c.Bounded) (hs : c.Sound) (env : Env) (op : Op) : (step env c op).Bounded := by
  cases op with
  | insert now key digest value originalSize =>
      exact h.insert hs.integral now key digest value originalSize
  | initiateInsert now key digest => exact h.initiateInsert now key digest
  | finishInsert casId size originalSize =>
      exact h.finishInsert hs.integral casId size originalSize
  | find key => exact h.find env.blobFiles key
  | lookUpAcId key => exact h.lookUpAcAndCasIds key
  | removeEntry acId => exact h.removeEntry hs.integral acId
  | clear =>
      obtain ⟨d, hev, heq⟩ := removeAllEntries_evicts hs.integral
      simp only [LLDiskCache.step, clear, heq]
      exact h.evicts hev
  | flushAcUsage now forced idle => exact h.flushAcUsage now forced idle
  | reset config =>
      exact bounded_enforceCacheSizeLimit (Sound.openDirectory
        (c := { c with otherDirs := Function.update c.otherDirs c.dir ⟨c.db, c.files⟩ })
        hs.others_update hs.log env.sharedCacheDir config).integral
  | restart config =>
      exact bounded_enforceCacheSizeLimit (Sound.openDirectory
        (c := { dir := [], otherDirs := Function.update c.otherDirs c.dir ⟨c.db, c.files⟩ })
        hs.others_update rfl env.sharedCacheDir config).integral

end Bounded

theorem bounded_of_reachable {env : Env} (h : Reachable env c) : c.Sound ∧ c.Bounded := by
  refine h.invariant (I := fun c => c.Sound ∧ c.Bounded) ?_ ?_
  · rintro _ ⟨config, rfl⟩
    have hs : (openDirectory env.sharedCacheDir { dir := [], otherDirs := fun _ => {} }
      config).Sound := Sound.openDirectory (fun _ => .empty) rfl _ config
    exact ⟨hs.enforceCacheSizeLimit, bounded_enforceCacheSizeLimit hs.integral⟩
  · rintro c _ op ⟨hs, hb⟩ - ⟨⟩
    exact ⟨hs.step env op, hb.step hs env op⟩

/-- **The size bound.**  In every reachable cache the stored total exceeds the limit by at
most what was inserted since the last sweep, and that is at most 1/128 of the limit. -/
theorem size_bound_of_reachable {env : Env} (h : Reachable env c) :
    c.db.totalCasSize ≤ c.sizeLimit + c.bytesInsertedSinceLastSweep
      ∧ c.bytesInsertedSinceLastSweep ≤ c.sizeLimit / 0x80
      ∧ c.db.totalCasSize ≤ c.sizeLimit + c.sizeLimit / 0x80 := by
  obtain ⟨htotal, hgrowth⟩ := (bounded_of_reachable h).2
  exact ⟨htotal, hgrowth, by omega⟩

/-- A finished insertion that is larger than the limit, with an id that was never given
out, and one that overwrites a finished row. -/
def oversizedRun : List Op :=
  [.initiateInsert 1 [0] [10], .finishInsert 1 400 900, .finishInsert 77 50 50,
    .insert 2 [1] [11] (.ofBytes [7, 7]) none, .finishInsert 1 2 9, .clear]

theorem size_bound_oversizedRun :
    let c := oversizedRun.foldl (step ⟨[], fun _ => none⟩)
      (construct [] (fun _ => {}) { sizeLimit := some 300 })
    c.db.totalCasSize ≤ c.sizeLimit + c.sizeLimit / 0x80 :=
  (size_bound_of_reachable (Reachable.calls (.start ⟨_, rfl⟩) oversizedRun)).2.2

end Cradle.Disk.LLDiskCache
