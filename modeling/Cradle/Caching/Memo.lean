import Cradle.Caching.Fidelity

/-!
# The memory cache as a memo table

A resolver uses the cache to memoize a function `spec` from keys to values: it acquires
a key, records `spec` of it or a failure if the record asks for a task, reads the value
and releases the key.  `Memo` is what holds between these operations: the resolver
knows which keys it holds, which of them are loading, and that whatever a record points
to is the value of `spec`.  Eviction takes nothing away that is held.
-/

namespace Cradle.Caching

variable {K D V : Type*} [DecidableEq K] [DecidableEq D]

/-! ## The states of the records -/

namespace ImmutableCache

variable {c c' : ImmutableCache K D V} {k k' : K}

omit [DecidableEq D] in
/-- Changing other fields of a record than its state. -/
theorem stateOf_of_modify (f : CacheRecord K D → CacheRecord K D) (hf : ∀ r, (f r).key = r.key)
    (hstate : ∀ r, (f r).state = r.state) (hrec : c'.records = c.records.modify k f hf) :
    c'.stateOf k' = c.stateOf k' := by
  rw [stateOf, stateOf, hrec, Table.find?_modify]
  by_cases h : k' = k
  · rw [if_pos h, h, Option.map_map]
    congr 1
    funext r
    exact hstate r
  · rw [if_neg h]

omit [DecidableEq D] in
@[simp] theorem stateOf_addRef : (c.addRefToCacheRecord k).stateOf k' = c.stateOf k' := by
  unfold addRefToCacheRecord
  dsimp only
  have hinc : (c.update k (fun r => { r with refCount := r.refCount + 1 })
      fun _ => rfl).stateOf k' = c.stateOf k' :=
    stateOf_of_modify _ (by intro; rfl) (by intro; rfl) rfl
  split
  · split
    · exact (stateOf_of_modify _ (by intro; rfl) (by intro; rfl) rfl).trans hinc
    · exact hinc
  · exact hinc

@[simp] theorem stateOf_addLock : (c.addLockToCacheRecord k).stateOf k' = c.stateOf k' := by
  have hinc : (c.update k (fun r => { r with lockCount := r.lockCount + 1 })
      fun _ => rfl).stateOf k' = c.stateOf k' :=
    stateOf_of_modify _ (by intro; rfl) (by intro; rfl) rfl
  rw [← hinc]
  unfold addLockToCacheRecord
  dsimp only
  split
  · split
    · split <;> rfl
    · rfl
  · rfl

@[simp] theorem stateOf_delLock : (c.delLockFromCacheRecord k).stateOf k' = c.stateOf k' := by
  have hdec : (c.update k (fun r => { r with lockCount := r.lockCount - 1 })
      fun _ => rfl).stateOf k' = c.stateOf k' :=
    stateOf_of_modify _ (by intro; rfl) (by intro; rfl) rfl
  rw [← hdec]
  unfold delLockFromCacheRecord
  dsimp only
  split
  · split
    · split <;> rfl
    · rfl
  · rfl

omit [DecidableEq D] in
/-- Records of other keys are left alone; the acquired one is ready or loading. -/
theorem stateOf_acquire : (c.acquireCacheRecord k).stateOf k'
    = if k' = k then some (if c.stateOf k = some .ready then .ready else .loading)
      else c.stateOf k' := by
  rw [acquireCacheRecord, stateOf_addRef]
  unfold stateOf retryFailed update findOrCreateRecord
  dsimp only
  rw [Table.find?_modify]
  by_cases hk : c.records.Has k
  · obtain ⟨r, hr⟩ := Option.isSome_iff_exists.mp (Table.find?_isSome.mpr hk)
    rw [if_pos hk]
    by_cases h : k' = k
    · simp only [h, if_true, hr, Option.map_some]
      cases hs : r.state <;> simp [hs]
    · simp [h]
  · rw [if_neg hk]
    dsimp only
    rw [Table.find?_insert hk, Table.find?_insert hk, Table.not_has.mp hk]
    by_cases h : k' = k
    · simp [h]
    · simp [h]

omit [DecidableEq D] in
theorem createsTask_iff : c.createsTask k = true
    ↔ c.stateOf k ≠ some .ready ∧ c.stateOf k ≠ some .loading := by
  rw [createsTask, stateOf]
  cases hr : c.records.find? k with
  | none => simp
  | some r => cases hs : r.state <;> simp [hs]

theorem stateOf_recordValue_of_ne (h : k' ≠ k) (d : D) (v : V) (size : ℕ) :
    (c.recordValueUntyped k d v size).stateOf k' = c.stateOf k' := by
  simp [stateOf, recordValueUntyped, Table.find?_modify, h]

omit [DecidableEq D] in
theorem stateOf_recordFailure : (c.recordFailure k).stateOf k'
    = if k' = k then (c.stateOf k).map fun _ => .failed else c.stateOf k' := by
  unfold stateOf recordFailure update
  dsimp only
  rw [Table.find?_modify]
  by_cases h : k' = k
  · simp [h, Function.comp_def]
  · simp [h]

theorem stateOf_of_reduceLoop {desiredSize : ℕ} {ks : List K} {s : EntryState}
    (h : (reduceLoop desiredSize ks c).stateOf k' = some s) : c.stateOf k' = some s := by
  induction ks generalizing c with
  | nil => exact h
  | cons k ks ih =>
      rw [reduceLoop] at h
      split at h
      · have hevict := ih h
        simp only [stateOf, evictFront, Table.find?_erase] at hevict
        split at hevict
        · simp at hevict
        · exact hevict
      · exact h

theorem stateOf_of_delRef {s : EntryState} (h : (c.delRefFromCacheRecord k).stateOf k' = some s) :
    c.stateOf k' = some s := by
  have hdec : (c.update k (fun r => { r with refCount := r.refCount - 1 })
      fun _ => rfl).stateOf k' = c.stateOf k' :=
    stateOf_of_modify _ (by intro; rfl) (by intro; rfl) rfl
  unfold delRefFromCacheRecord at h
  dsimp only at h
  split at h
  · split at h
    · have hlisted := stateOf_of_reduceLoop h
      rw [← hdec, ← hlisted]
      exact (stateOf_of_modify _ (by intro; rfl) (by intro; rfl) rfl).symm
    · rwa [hdec] at h
  · rwa [hdec] at h

end ImmutableCache

/-! ## The invariant -/

/-- The cache memoizes `spec`; `held` are the keys of the live pointers, and `loading`
those of them whose records are loading. -/
structure Memo (digestOf : V → D) (spec : K → Option V) (held loading : List K)
    (c : ImmutableCache K D V) : Prop where
  inv : Inv (fun k => held.count k) (fun _ => 0) c
  loading_iff : ∀ k, c.stateOf k = some .loading ↔ k ∈ loading
  held_of_loading : ∀ k ∈ loading, k ∈ held
  digest : ∀ d v, c.cas.valueOf d = some v → d = digestOf v
  value : ∀ k d, c.casRecordOf k = some d → ∃ v, d = digestOf v ∧ spec k = some v

namespace Memo

variable {digestOf : V → D} {spec : K → Option V} {held loading : List K}
  {c : ImmutableCache K D V} {k : K}

theorem init (limit : ℕ) : Memo digestOf spec [] [] { unusedSizeLimit := limit } where
  inv := (System.ok_init limit).congr (by simp [System.init, System.refs])
    (by simp [System.init, System.lks])
  loading_iff k := by simp [ImmutableCache.stateOf, Table.find?]
  held_of_loading := by simp
  digest d v h := by simp [CasCache.valueOf, Table.find?] at h
  value k d h := by simp [ImmutableCache.casRecordOf, Table.find?] at h

/-- A ready record gives the value of its key. -/
theorem getValue (h : Memo digestOf spec held loading c) (hdigest : Function.Injective digestOf)
    (hk : c.stateOf k = some .ready) : ∃ v, c.getValue k = some v ∧ spec k = some v := by
  obtain ⟨d, hptr⟩ := h.inv.exists_casRecordOf hk
  obtain ⟨v, hd, hv⟩ := h.value k d hptr
  obtain ⟨v', hv'⟩ := h.inv.exists_valueOf hptr
  obtain rfl : v = v' := hdigest (hd.symm.trans (h.digest d v' hv'))
  exact ⟨v, by rw [ImmutableCache.getValue_eq, hptr]; exact hv', hv⟩

private theorem count_cons_fun (k : K) (held : List K) :
    (fun k' => held.count k' + if k' = k then 1 else 0) = fun k' => (k :: held).count k' := by
  funext k'
  simp only [List.count_cons, beq_iff_eq, eq_comm (a := k)]

theorem acquire_ready (h : Memo digestOf spec held loading c) (hk : c.stateOf k = some .ready) :
    Memo digestOf spec (k :: held) loading (c.acquireCacheRecord k) where
  inv := by simpa only [count_cons_fun] using h.inv.acquire k
  loading_iff k' := by
    rw [ImmutableCache.stateOf_acquire, if_pos hk, ← h.loading_iff]
    by_cases hk' : k' = k
    · simp [hk', hk]
    · rw [if_neg hk']
  held_of_loading k' hk' := List.mem_cons_of_mem k (h.held_of_loading k' hk')
  digest d v hd := h.digest d v ((ImmutableCache.within_acquire k).valueOf d v hd)
  value k' d hd := h.value k' d ((ImmutableCache.within_acquire k).casRecordOf k' d hd)

theorem acquire_new (h : Memo digestOf spec held loading c) (hk : c.stateOf k ≠ some .ready) :
    Memo digestOf spec (k :: held) (k :: loading) (c.acquireCacheRecord k) where
  inv := by simpa only [count_cons_fun] using h.inv.acquire k
  loading_iff k' := by
    rw [ImmutableCache.stateOf_acquire, if_neg hk, List.mem_cons, ← h.loading_iff]
    by_cases hk' : k' = k
    · simp [hk']
    · simp [hk']
  held_of_loading k' hk' := by
    rw [List.mem_cons] at hk' ⊢
    exact hk'.imp_right (h.held_of_loading k')
  digest d v hd := h.digest d v ((ImmutableCache.within_acquire k).valueOf d v hd)
  value k' d hd := h.value k' d ((ImmutableCache.within_acquire k).casRecordOf k' d hd)

/-- The value of a loading key is recorded. -/
theorem recordValue (h : Memo digestOf spec held (k :: loading) c) (hk : k ∉ loading) {v : V}
    (hv : spec k = some v) (size : ℕ) :
    Memo digestOf spec held loading (c.recordValueUntyped k (digestOf v) v size)
      ∧ (c.recordValueUntyped k (digestOf v) v size).stateOf k = some .ready := by
  have hload : c.stateOf k = some .loading := (h.loading_iff k).mpr (by simp)
  have hhas : c.records.Has k := by
    obtain ⟨r, hr, -⟩ := Option.map_eq_some_iff.mp hload
    exact Table.find?_isSome.mp (by simp [hr])
  have hready := ImmutableCache.stateOf_recordValue k hhas (digestOf v) v size
  refine ⟨⟨h.inv.recordValue hload _ v size, fun k' => ?_, fun k' hk' => ?_, fun d v' hd => ?_,
    fun k' d hd => ?_⟩, hready⟩
  · by_cases hk' : k' = k
    · simp [hk', hready, hk]
    · rw [ImmutableCache.stateOf_recordValue_of_ne hk', h.loading_iff, List.mem_cons]
      simp [hk']
  · exact h.held_of_loading k' (List.mem_cons_of_mem k hk')
  · rw [ImmutableCache.valueOf_recordValue] at hd
    split at hd
    · next heq =>
        -- whatever the CAS holds for the digest has that digest
        cases hold : c.cas.valueOf (digestOf v) with
        | none =>
            rw [hold, Option.getD_none, Option.some.injEq] at hd
            rw [heq, hd]
        | some v₀ =>
            rw [hold, Option.getD_some, Option.some.injEq] at hd
            rw [heq, ← hd]
            exact h.digest _ v₀ hold
    · exact h.digest d v' hd
  · rw [ImmutableCache.casRecordOf_recordValue k hhas] at hd
    split at hd
    · next heq => exact ⟨v, (Option.some.inj hd).symm, heq ▸ hv⟩
    · exact h.value k' d hd

/-- The load of a key fails. -/
theorem recordFailure (h : Memo digestOf spec held (k :: loading) c) (hk : k ∉ loading) :
    Memo digestOf spec held loading (c.recordFailure k) where
  inv := h.inv.recordFailure ((h.loading_iff k).mpr (by simp))
  loading_iff k' := by
    rw [ImmutableCache.stateOf_recordFailure]
    by_cases hk' : k' = k
    · simp [hk', hk]
    · rw [if_neg hk', h.loading_iff, List.mem_cons]
      simp [hk']
  held_of_loading k' hk' := h.held_of_loading k' (List.mem_cons_of_mem k hk')
  digest d v hd := h.digest d v ((ImmutableCache.within_recordFailure k).valueOf d v hd)
  value k' d hd := h.value k' d ((ImmutableCache.within_recordFailure k).casRecordOf k' d hd)

/-- An operation that only takes away, and not what is held. -/
private theorem of_within {held' : List K} {c' : ImmutableCache K D V}
    (h : Memo digestOf spec held loading c) (hinv : Inv (fun k => held'.count k) (fun _ => 0) c')
    (hheld : ∀ k ∈ loading, k ∈ held') (hw : c'.Within c)
    (hstate : ∀ k s, c'.stateOf k = some s → c.stateOf k = some s) :
    Memo digestOf spec held' loading c' where
  inv := hinv
  loading_iff k := by
    refine ⟨fun hk => (h.loading_iff k).mp (hstate k _ hk), fun hk => ?_⟩
    -- a held record is still there, so it is in the state it was in
    obtain ⟨r, hr⟩ := hinv.find (List.count_pos_iff.mpr (hheld k hk))
    have hs : c'.stateOf k = some r.state := by simp [ImmutableCache.stateOf, hr]
    rw [hs, ← hstate k _ hs]
    exact (h.loading_iff k).mpr hk
  held_of_loading := hheld
  digest d v hd := h.digest d v (hw.valueOf d v hd)
  value k d hd := h.value k d (hw.casRecordOf k d hd)

theorem release (h : Memo digestOf spec (k :: held) loading c) (hk : k ∉ loading) :
    Memo digestOf spec held loading (c.delRefFromCacheRecord k) := by
  refine h.of_within ?_ (fun k' hk' => ?_) (ImmutableCache.within_delRef k)
    fun _ _ => ImmutableCache.stateOf_of_delRef
  · refine (h.inv.delRef (k := k) (by simp) (by simp)).congr (fun k' => ?_) fun _ => rfl
    rw [← congrFun (count_cons_fun k held) k', Nat.add_sub_cancel]
  · have := h.held_of_loading k' hk'
    rw [List.mem_cons] at this
    exact this.resolve_left fun heq => hk (heq ▸ hk')

theorem reduce (h : Memo digestOf spec held loading c) (desiredSize : ℕ) :
    Memo digestOf spec held loading (c.reduceMemoryCacheSize desiredSize) :=
  h.of_within (h.inv.reduceMemoryCacheSize desiredSize) h.held_of_loading
    (ImmutableCache.within_reduceLoop desiredSize _) fun _ _ =>
      ImmutableCache.stateOf_of_reduceLoop

end Memo
end Cradle.Caching
