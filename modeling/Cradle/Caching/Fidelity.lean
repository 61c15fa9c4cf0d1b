import Cradle.Caching.Invariant
import Cradle.Core.UniqueHash

/-!
# Which value a cache pointer sees

`get_value` follows two references: from the AC record to a digest (`casRecordOf`)
and from the digest to the value in the CAS (`valueOf`).  Only `record_value` adds to
either; every other operation can only take away (`Within`).

The CAS shares a record between all values with the same digest.  So a record
returns the value recorded for its key as long as no two values with the same byte
stream meet in the CAS.  When they do, the second one is lost.
-/

namespace Cradle.Caching

variable {K D V : Type*} [DecidableEq K] [DecidableEq D]

/-! ## The two references -/

/-- The value stored for a digest. -/
def CasCache.valueOf (c : CasCache D V) (d : D) : Option V := (c.map.find? d).map CasRecord.value

/-- The digest that the record of a key points to. -/
def ImmutableCache.casRecordOf (c : ImmutableCache K D V) (k : K) : Option D :=
  (c.records.find? k).bind CacheRecord.casRecord

theorem ImmutableCache.getValue_eq (c : ImmutableCache K D V) (k : K) :
    c.getValue k = (c.casRecordOf k).bind c.cas.valueOf := by
  rw [getValue, casRecordOf, Option.bind_assoc]
  rfl

namespace CasCache

variable (c : CasCache D V) (d d' : D)

theorem valueOf_modify {f : CasRecord D V → CasRecord D V} (hf : ∀ e, (f e).digest = e.digest)
    (hv : ∀ e, (f e).value = e.value) (total locked : ℤ) :
    valueOf ⟨c.map.modify d f hf, total, locked⟩ d' = c.valueOf d' := by
  simp only [valueOf, Table.find?_modify]
  by_cases h : d' = d
  · rw [if_pos h, h, Option.map_map]
    congr 1
    funext e
    exact hv e
  · rw [if_neg h]

@[simp] theorem valueOf_addLock : (c.addLock d).valueOf d' = c.valueOf d' := by
  unfold addLock
  dsimp only
  split
  · split <;> exact c.valueOf_modify d d' _ CasRecord.addLock_value _ _
  · exact c.valueOf_modify d d' _ CasRecord.addLock_value _ _

@[simp] theorem valueOf_delLock : (c.delLock d).valueOf d' = c.valueOf d' := by
  unfold delLock
  dsimp only
  split
  · split <;> exact c.valueOf_modify d d' _ CasRecord.delLock_value _ _
  · exact c.valueOf_modify d d' _ CasRecord.delLock_value _ _

/-- An existing value stays, whatever value is offered for its digest. -/
theorem valueOf_ensureRecord (v : V) (size : ℕ) :
    (c.ensureRecord d v size).valueOf d'
      = if d' = d then some ((c.valueOf d).getD v) else c.valueOf d' := by
  rw [ensureRecord]
  by_cases hd : c.map.Has d
  · rw [if_pos hd, c.valueOf_modify d d' _ CasRecord.addRef_value]
    obtain ⟨e, he⟩ := Option.isSome_iff_exists.mp (Table.find?_isSome.mpr hd)
    by_cases h : d' = d
    · simp [h, valueOf, he]
    · rw [if_neg h]
  · rw [if_neg hd]
    unfold valueOf
    rw [Table.find?_insert hd, Table.not_has.mp hd]
    by_cases h : d' = d
    · simp [h]
    · simp [h]

theorem valueOf_of_dropRef {v : V} (h : (c.dropRef d).valueOf d' = some v) :
    c.valueOf d' = some v := by
  have hmod := c.valueOf_modify d d' CasRecord.delRef_digest CasRecord.delRef_value c.totalSize
    c.totalLockedSize
  rw [dropRef] at h
  dsimp only at h
  split at h
  · next e he =>
      split at h
      · rw [← hmod]
        simp only [delRecord, valueOf, Table.find?_erase] at h
        split at h
        · simp at h
        · exact h
      · rwa [hmod] at h
  · rwa [hmod] at h

end CasCache

/-! ## Everything but `record_value` only takes away -/

namespace ImmutableCache

/-- `c'` holds no reference and no value that `c` does not hold. -/
structure Within (c' c : ImmutableCache K D V) : Prop where
  casRecordOf : ∀ k d, c'.casRecordOf k = some d → c.casRecordOf k = some d
  valueOf : ∀ d v, c'.cas.valueOf d = some v → c.cas.valueOf d = some v

variable {c c' c'' : ImmutableCache K D V} (k : K)

theorem Within.refl (c : ImmutableCache K D V) : c.Within c := ⟨fun _ _ h => h, fun _ _ h => h⟩

theorem Within.trans (h : c''.Within c') (h' : c'.Within c) : c''.Within c :=
  ⟨fun k d hd => h'.casRecordOf k d (h.casRecordOf k d hd),
    fun d v hv => h'.valueOf d v (h.valueOf d v hv)⟩

omit [DecidableEq D] in
/-- Changing other fields of a record than its CAS pointer. -/
theorem casRecordOf_modify {f : CacheRecord K D → CacheRecord K D}
    (hf : ∀ r, (f r).key = r.key) (hcas : ∀ r, (f r).casRecord = r.casRecord) (k' : K) :
    ((c.records.modify k f hf).find? k').bind CacheRecord.casRecord = c.casRecordOf k' := by
  rw [casRecordOf, Table.find?_modify]
  by_cases h : k' = k
  · rw [if_pos h, h]
    cases c.records.find? k with
    | none => rfl
    | some r => exact hcas r
  · rw [if_neg h]

theorem within_of_modify (f : CacheRecord K D → CacheRecord K D)
    (hf : ∀ r, (f r).key = r.key) (hcas : ∀ r, (f r).casRecord = r.casRecord)
    (hrec : c'.records = c.records.modify k f hf)
    (hval : ∀ d, c'.cas.valueOf d = c.cas.valueOf d) : c'.Within c where
  casRecordOf k' d h := by rwa [casRecordOf, hrec, casRecordOf_modify k hf hcas] at h
  valueOf d v h := by rwa [hval] at h

theorem within_evictFront : (c.evictFront k).Within c where
  casRecordOf k' d h := by
    simp only [casRecordOf, evictFront, Table.find?_erase] at h
    split at h
    · simp at h
    · exact h
  valueOf d v h := by
    simp only [evictFront] at h
    split at h
    · exact c.cas.valueOf_of_dropRef _ _ h
    · exact h

theorem within_reduceLoop (desiredSize : ℕ) (ks : List K) :
    (reduceLoop desiredSize ks c).Within c := by
  induction ks generalizing c with
  | nil => exact .refl c
  | cons k ks ih =>
      rw [reduceLoop]
      split
      · exact ih.trans (within_evictFront k)
      · exact .refl c

theorem within_addRef : (c.addRefToCacheRecord k).Within c := by
  unfold addRefToCacheRecord
  dsimp only
  have hinc : (c.update k (fun r => { r with refCount := r.refCount + 1 })
      fun _ => rfl).Within c :=
    within_of_modify k _ (by intro; rfl) (by intro; rfl) rfl fun _ => rfl
  split
  · split
    · exact .trans (within_of_modify k _ (by intro; rfl) (by intro; rfl) rfl fun _ => rfl) hinc
    · exact hinc
  · exact hinc

theorem within_delRef : (c.delRefFromCacheRecord k).Within c := by
  unfold delRefFromCacheRecord
  dsimp only
  have hdec : (c.update k (fun r => { r with refCount := r.refCount - 1 })
      fun _ => rfl).Within c :=
    within_of_modify k _ (by intro; rfl) (by intro; rfl) rfl fun _ => rfl
  split
  · split
    · refine .trans (within_reduceLoop _ _) (.trans ?_ hdec)
      exact within_of_modify k _ (by intro; rfl) (by intro; rfl) rfl fun _ => rfl
    · exact hdec
  · exact hdec

theorem within_addLock : (c.addLockToCacheRecord k).Within c := by
  unfold addLockToCacheRecord
  dsimp only
  split
  · split
    · split
      · exact within_of_modify k _ (by intro; rfl) (by intro; rfl) rfl
          fun d => c.cas.valueOf_addLock _ d
      · exact within_of_modify k _ (by intro; rfl) (by intro; rfl) rfl fun _ => rfl
    · exact within_of_modify k _ (by intro; rfl) (by intro; rfl) rfl fun _ => rfl
  · exact within_of_modify k _ (by intro; rfl) (by intro; rfl) rfl fun _ => rfl

theorem within_delLock : (c.delLockFromCacheRecord k).Within c := by
  unfold delLockFromCacheRecord
  dsimp only
  split
  · split
    · split
      · exact within_of_modify k _ (by intro; rfl) (by intro; rfl) rfl
          fun d => c.cas.valueOf_delLock _ d
      · exact within_of_modify k _ (by intro; rfl) (by intro; rfl) rfl fun _ => rfl
    · exact within_of_modify k _ (by intro; rfl) (by intro; rfl) rfl fun _ => rfl
  · exact within_of_modify k _ (by intro; rfl) (by intro; rfl) rfl fun _ => rfl

theorem within_recordFailure : (c.recordFailure k).Within c :=
  within_of_modify k _ (by intro; rfl) (by intro; rfl) rfl fun _ => rfl

theorem within_acquire : (c.acquireCacheRecord k).Within c := by
  have hfind : (c.findOrCreateRecord k).Within c := by
    rw [findOrCreateRecord]
    by_cases hk : c.records.Has k
    · rw [if_pos hk]
      exact ⟨fun _ _ h => h, fun _ _ h => h⟩
    · rw [if_neg hk]
      refine ⟨fun k' d h => ?_, fun _ _ h => h⟩
      rw [casRecordOf] at h ⊢
      rw [Table.find?_insert hk] at h
      split at h
      · simp at h
      · exact h
  have hretry : ((c.findOrCreateRecord k).retryFailed k).Within (c.findOrCreateRecord k) := by
    refine within_of_modify k _ ?_ ?_ rfl fun _ => rfl <;> intro r <;> split <;> rfl
  exact (within_addRef k).trans (hretry.trans hfind)

/-- The pointers after `record_value`. -/
theorem casRecordOf_recordValue (hk : c.records.Has k) (d : D) (v : V) (size : ℕ) (k' : K) :
    (c.recordValueUntyped k d v size).casRecordOf k'
      = if k' = k then some d else c.casRecordOf k' := by
  obtain ⟨r, hr⟩ := Option.isSome_iff_exists.mp (Table.find?_isSome.mpr hk)
  simp only [casRecordOf, recordValueUntyped, Table.find?_modify]
  by_cases h : k' = k
  · simp [h, hr]
  · simp [h]

/-- The values after `record_value`: a value that is there already stays. -/
theorem valueOf_recordValue (d : D) (v : V) (size : ℕ) (d' : D) :
    (c.recordValueUntyped k d v size).cas.valueOf d'
      = if d' = d then some ((c.cas.valueOf d).getD v) else c.cas.valueOf d' := by
  rw [← CasCache.valueOf_ensureRecord _ _ _ v size]
  cases hr : c.records.find? k with
  | none => simp [recordValueUntyped, hr]
  | some r =>
      by_cases hl : 0 < r.lockCount
      · simp [recordValueUntyped, hr, hl]
      · simp [recordValueUntyped, hr, hl]

theorem stateOf_recordValue (hk : c.records.Has k) (d : D) (v : V) (size : ℕ) :
    (c.recordValueUntyped k d v size).stateOf k = some .ready := by
  obtain ⟨r, hr⟩ := Option.isSome_iff_exists.mp (Table.find?_isSome.mpr hk)
  simp [stateOf, recordValueUntyped, hr]

end ImmutableCache

/-- A CAS pointer is not dangling. -/
theorem Inv.exists_valueOf {refs lks : K → ℕ} {c : ImmutableCache K D V} (h : Inv refs lks c)
    {k : K} {d : D} (hptr : c.casRecordOf k = some d) : ∃ v, c.cas.valueOf d = some v := by
  obtain ⟨r, hr, hd⟩ := Option.bind_eq_some_iff.mp hptr
  have hrefs : 0 < (links c.records).refs d := by
    rw [links_refs, List.countP_pos_iff]
    exact ⟨r, (Table.find?_eq_some.mp hr).1, by simp [hd]⟩
  obtain ⟨e, he, -, -⟩ := h.cas.find hrefs
  exact ⟨e.value, by simp [CasCache.valueOf, he]⟩

/-- The record of a ready key has a CAS pointer. -/
theorem Inv.exists_casRecordOf {refs lks : K → ℕ} {c : ImmutableCache K D V}
    (h : Inv refs lks c) {k : K} (hk : c.stateOf k = some .ready) :
    ∃ d, c.casRecordOf k = some d := by
  obtain ⟨r, hr, hs⟩ := Option.map_eq_some_iff.mp hk
  have hok := h.records k
  rw [hr] at hok
  obtain ⟨d, hd⟩ := Option.isSome_iff_exists.mp (hok.2.2.2.2.2.mpr hs)
  exact ⟨d, by simp [ImmutableCache.casRecordOf, hr, hd]⟩

/-! ## Fidelity -/

namespace System

variable {stream : V → Bytes} {sha : Bytes → D} {deepSizeof : V → ℕ} {s s' : System K D V}

/-- Every ready record returns the value recorded for its key. -/
def Faithful (s : System K D V) : Prop :=
  ∀ k, s.cache.stateOf k = some .ready →
    ∃ v, s.recorded k = some v ∧ s.cache.getValue k = some v

/-- A value is recorded only while the CAS holds no other value with the same byte
stream. -/
def NoCollision (stream : V → Bytes) (s : System K D V) : Action K V → Prop
  | .recordValue _ v => ∀ e ∈ s.cache.cas.map, stream e.value = stream v → e.value = v
  | _ => True

/-- The invariant behind `Faithful`. -/
structure FaithInv (stream : V → Bytes) (sha : Bytes → D) (s : System K D V) : Prop where
  ok : s.Ok
  digest : ∀ d v, s.cache.cas.valueOf d = some v → d = sha (stream v)
  value : ∀ k d v, s.cache.casRecordOf k = some d → s.cache.cas.valueOf d = some v →
    s.recorded k = some v

theorem FaithInv.faithful (h : FaithInv stream sha s) : s.Faithful := by
  intro k hk
  obtain ⟨d, hptr⟩ := h.ok.exists_casRecordOf hk
  obtain ⟨v, hv⟩ := h.ok.exists_valueOf hptr
  refine ⟨v, h.value k d v hptr hv, ?_⟩
  rw [ImmutableCache.getValue_eq, hptr]
  exact hv

/-- A step that records no value leaves the ghost alone and only takes away. -/
theorem step_within {digestOf : V → D} {a : Action K V} (ha : ∀ k v, a ≠ .recordValue k v)
    (hs : step digestOf deepSizeof s a = some s') :
    s'.recorded = s.recorded ∧ s'.cache.Within s.cache := by
  cases a with
  | acquire k =>
      obtain rfl := Option.some.inj hs
      exact ⟨rfl, ImmutableCache.within_acquire k⟩
  | release k =>
      simp only [step, Option.ite_none_right_eq_some, Option.some.injEq] at hs
      obtain ⟨-, rfl⟩ := hs
      exact ⟨rfl, ImmutableCache.within_delRef k⟩
  | lock k =>
      simp only [step, Option.ite_none_right_eq_some, Option.some.injEq] at hs
      obtain ⟨-, rfl⟩ := hs
      exact ⟨rfl, (ImmutableCache.within_addLock k).trans (ImmutableCache.within_addRef k)⟩
  | unlock k =>
      simp only [step, Option.ite_none_right_eq_some, Option.some.injEq] at hs
      obtain ⟨-, rfl⟩ := hs
      exact ⟨rfl, (ImmutableCache.within_delRef k).trans (ImmutableCache.within_delLock k)⟩
  | recordValue k v => exact absurd rfl (ha k v)
  | recordFailure k =>
      simp only [step, Option.ite_none_right_eq_some, Option.some.injEq] at hs
      obtain ⟨-, rfl⟩ := hs
      exact ⟨rfl, ImmutableCache.within_recordFailure k⟩
  | reduce n =>
      obtain rfl := Option.some.inj hs
      exact ⟨rfl, ImmutableCache.within_reduceLoop n _⟩
  | clearUnused =>
      obtain rfl := Option.some.inj hs
      exact ⟨rfl, ImmutableCache.within_reduceLoop 0 _⟩

/-- What a `record_value` step does. -/
theorem step_recordValue {digestOf : V → D} {k : K} {v : V}
    (hs : step digestOf deepSizeof s (.recordValue k v) = some s') :
    s.cache.records.Has k ∧ s'.recorded = Function.update s.recorded k (some v)
      ∧ s'.cache = s.cache.recordValueUntyped k (digestOf v) v (deepSizeof v) := by
  simp only [step, Option.ite_none_right_eq_some, Option.some.injEq] at hs
  obtain ⟨⟨-, hk⟩, rfl⟩ := hs
  obtain ⟨r, hr, -⟩ := Option.map_eq_some_iff.mp hk
  exact ⟨Table.find?_isSome.mp (by simp [hr]), rfl, rfl⟩

theorem faithInv_init (limit : ℕ) : FaithInv stream sha (init limit : System K D V) where
  ok := ok_init limit
  digest d v h := by simp [init, CasCache.valueOf, Table.find?] at h
  value k d v h := by simp [init, ImmutableCache.casRecordOf, Table.find?] at h

theorem faithInv_recordValue (hsha : Function.Injective sha) (h : FaithInv stream sha s) {k : K}
    {v : V} (hs : step (sha ∘ stream) deepSizeof s (.recordValue k v) = some s')
    (hv : NoCollision stream s (.recordValue k v)) : FaithInv stream sha s' := by
  obtain ⟨hk, hrec, hcache⟩ := step_recordValue hs
  -- whatever the CAS holds for the digest of `v` is `v`
  have hsame : (s.cache.cas.valueOf (sha (stream v))).getD v = v := by
    cases hval : s.cache.cas.valueOf (sha (stream v)) with
    | none => rfl
    | some v' =>
        obtain ⟨e, he, rfl⟩ := Option.map_eq_some_iff.mp hval
        exact hv e (Table.find?_eq_some.mp he).1 (hsha (h.digest _ _ hval)).symm
  refine ⟨ok_step h.ok hs, fun d v' hd => ?_, fun k' d v' hptr hd => ?_⟩
  · rw [hcache, ImmutableCache.valueOf_recordValue] at hd
    simp only [Function.comp_apply, hsame] at hd
    split at hd
    · next heq =>
        obtain rfl := Option.some.inj hd
        exact heq
    · exact h.digest d v' hd
  · rw [hcache, ImmutableCache.valueOf_recordValue] at hd
    rw [hcache, ImmutableCache.casRecordOf_recordValue k hk] at hptr
    rw [hrec]
    simp only [Function.comp_apply, hsame] at hd hptr
    by_cases hk' : k' = k
    · rw [if_pos hk', Option.some.injEq] at hptr
      rw [if_pos hptr.symm] at hd
      rw [hk', Function.update_self, hd]
    · rw [if_neg hk'] at hptr
      rw [Function.update_of_ne hk']
      split at hd
      · next heq =>
          -- the record of `k'` points to this digest already, so its value is there
          obtain ⟨v₀, hv₀⟩ := h.ok.exists_valueOf hptr
          rw [heq] at hv₀
          rw [hv₀, Option.getD_some] at hsame
          rw [h.value k' d v₀ hptr (heq ▸ hv₀), hsame, hd]
      · exact h.value k' d v' hptr hd

theorem faithInv_step (hsha : Function.Injective sha) (h : FaithInv stream sha s)
    {a : Action K V} (hs : step (sha ∘ stream) deepSizeof s a = some s')
    (ha : NoCollision stream s a) : FaithInv stream sha s' := by
  by_cases hrec : ∃ k v, a = .recordValue k v
  · obtain ⟨k, v, rfl⟩ := hrec
    exact faithInv_recordValue hsha h hs ha
  · obtain ⟨hghost, hw⟩ := step_within (fun k v he => hrec ⟨k, v, he⟩) hs
    refine ⟨ok_step h.ok hs, fun d v hd => h.digest d v (hw.valueOf d v hd), ?_⟩
    intro k d v hptr hd
    rw [hghost]
    exact h.value k d v (hw.casRecordOf k d hptr) (hw.valueOf d v hd)

/-- A value that meets another one with its byte stream is lost at once. -/
theorem noCollision_of_faithful (h : FaithInv stream sha s) {a : Action K V}
    (hs : step (sha ∘ stream) deepSizeof s a = some s') (hf : s'.Faithful) :
    NoCollision stream s a := by
  cases a with
  | recordValue k v =>
      intro e he hstream
      obtain ⟨hk, hrec, hcache⟩ := step_recordValue hs
      have hval : s.cache.cas.valueOf e.digest = some e.value := by
        simp [CasCache.valueOf, Table.find?_eq_some.mpr ⟨he, rfl⟩]
      have hdigest : e.digest = sha (stream v) := by rw [h.digest _ _ hval, hstream]
      obtain ⟨v', hrecorded, hget⟩ := hf k (by
        rw [hcache]
        exact ImmutableCache.stateOf_recordValue k hk _ _ _)
      rw [hrec, Function.update_self, Option.some.injEq] at hrecorded
      rw [hcache, ImmutableCache.getValue_eq, ImmutableCache.casRecordOf_recordValue k hk,
        if_pos rfl, Option.bind_some, ImmutableCache.valueOf_recordValue, if_pos rfl,
        Function.comp_apply, ← hdigest, hval, Option.getD_some, Option.some.injEq] at hget
      rw [hget, hrecorded]
  | _ => trivial

end System

/-- Along a run, ready records return what was recorded for them exactly if no value
is ever recorded while the CAS holds a different one with the same byte stream. -/
theorem faithful_along_iff {stream : V → Bytes} {sha : Bytes → D} {deepSizeof : V → ℕ}
    (hsha : Function.Injective sha) (limit : ℕ) (as : List (Action K V)) :
    Transition.Along (System.step (sha ∘ stream) deepSizeof) System.Faithful
        (System.init limit) as
      ↔ Transition.StepsMeet (System.step (sha ∘ stream) deepSizeof) (System.NoCollision stream)
        (System.init limit) as :=
  Transition.along_iff_stepsMeet (fun _ h => h.faithful)
    (fun _ _ _ h hs ha => System.faithInv_step hsha h hs ha)
    (fun _ _ _ h hs hf => System.noCollision_of_faithful h hs hf) (System.faithInv_init limit) as

/-- Strings have different byte streams, so a cache of strings is faithful. -/
theorem faithful_along_strings :
    Transition.Along (System.step (id ∘ fun t : Bytes => (Arg.string t).stream id) List.length)
      System.Faithful (System.init 1000)
      [.acquire 0, .recordValue 0 [97, 98], .acquire 1, .recordValue 1 [99], .release 0] := by
  refine (faithful_along_iff Function.injective_id 1000 _).mpr
    (Transition.stepsMeet_of_forall (fun s a => ?_) _ _)
  cases a with
  | recordValue k v =>
      intro e _ h
      simpa [Arg.stream] using h
  | _ => trivial

/-- `std::vector<std::string>{"ab", "c"}`. -/
def vectorAbC : Arg := .vector .string [.string [97, 98], .string [99]]

/-- `std::vector<std::string>{"a", "bc"}`. -/
def vectorABc : Arg := .vector .string [.string [97], .string [98, 99]]

/-- Two keys record these two values, one after the other. -/
def collidingRun : List (Action ℕ Arg) :=
  [.acquire 0, .recordValue 0 vectorAbC, .acquire 1, .recordValue 1 vectorABc]

/-- The pointer for the second key returns the value of the first one. -/
theorem not_faithful_collidingRun :
    ¬ ∀ as : List (Action ℕ Arg), Transition.Along
      (System.step (id ∘ Arg.stream id) fun _ => 1) System.Faithful (System.init 1000) as := by
  intro h
  let final := Transition.run (System.step (id ∘ Arg.stream id) fun _ => 1)
    (System.init (K := ℕ) 1000) collidingRun
  have hstate : (final.bind fun s => s.cache.stateOf 1) = some .ready := by decide
  have hrecorded : (final.bind fun s => s.recorded 1).map (vectorABc.equals ·) = some true := by
    decide
  have hvalue : (final.bind fun s => s.cache.getValue 1).map (vectorABc.equals ·) = some false := by
    decide
  obtain ⟨s, hs, hready⟩ := Option.bind_eq_some_iff.mp hstate
  obtain ⟨v, hv, hget⟩ := (h collidingRun).run hs 1 hready
  rw [hs] at hrecorded hvalue
  simp only [Option.bind_some, hv, hget, Option.map_some, Option.some.injEq] at hrecorded hvalue
  rw [hrecorded] at hvalue
  exact absurd hvalue (by decide)

end Cradle.Caching
