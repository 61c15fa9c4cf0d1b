import Cradle.Caching.Immutable

/-!
# The representation invariant of the memory cache

The counters of the two levels are tied together by the *links*: one for each AC
record that points to a CAS record, with a flag that says whether the AC record is
locked.  `CasInv L c` states the CAS counters and size totals in terms of the links
`L`, and depends on `L` up to permutation only, so each CAS operation has one lemma
about the link it is called for.  `Inv` adds the AC counters, key by key, in terms
of the number of live pointers and locks.
-/

namespace Cradle.Caching

/-! ## The content-addressable storage -/

section Cas
variable {D V : Type*} [DecidableEq D]

/-- The digest each linked AC record points to, and whether that record is locked. -/
abbrev Links (D : Type*) := List (D × Bool)

/-- The number of links to a digest. -/
def Links.refs (L : Links D) (d : D) : ℕ := L.countP (·.1 = d)

/-- The number of links to a digest from locked records. -/
def Links.locked (L : Links D) (d : D) : ℕ := L.count (d, true)

@[simp] theorem Links.refs_cons (l : D × Bool) (L : Links D) (d : D) :
    Links.refs (l :: L) d = L.refs d + if l.1 = d then 1 else 0 := by
  simp [Links.refs, List.countP_cons]

@[simp] theorem Links.locked_cons (l : D × Bool) (L : Links D) (d : D) :
    Links.locked (l :: L) d = L.locked d + if l = (d, true) then 1 else 0 := by
  simp [Links.locked, List.count_cons]

theorem Links.locked_le_refs (L : Links D) (d : D) : L.locked d ≤ L.refs d := by
  rw [Links.locked, Links.refs, List.count]
  exact List.countP_mono_left fun l _ hl => by simp_all

/-- A CAS record agrees with the number `n` of links to its digest, `m` of them from
locked records; without links there is no record. -/
def CasOk (n m : ℕ) : Option (CasRecord D V) → Prop
  | none => n = 0
  | some e => e.refCount = n ∧ 0 < n ∧ e.lockCount = m

/-- What a CAS record adds to `total_locked_size`. -/
def CasRecord.lockedSize (e : CasRecord D V) : ℤ := if 0 < e.lockCount then e.deepSize else 0

/-- The CAS counters and totals, relative to the links of the AC records. -/
structure CasInv (L : Links D) (c : CasCache D V) : Prop where
  counts : ∀ d, CasOk (L.refs d) (L.locked d) (c.map.find? d)
  total : c.totalSize = c.map.sum fun e => e.deepSize
  locked : c.totalLockedSize = c.map.sum CasRecord.lockedSize

namespace CasInv

variable {L L' : Links D} {c : CasCache D V} {d : D}

theorem perm (h : CasInv L c) (hp : L.Perm L') : CasInv L' c where
  counts d := by
    have := h.counts d
    simpa only [Links.refs, Links.locked, hp.countP_eq, hp.count_eq] using this
  total := h.total
  locked := h.locked

/-- A link has a record, whose counters it is part of. -/
theorem find (h : CasInv L c) (hd : 0 < L.refs d) :
    ∃ e, c.map.find? d = some e ∧ e.refCount = L.refs d ∧ e.lockCount = L.locked d := by
  have hok := h.counts d
  cases hf : c.map.find? d with
  | none => rw [hf] at hok; simp only [CasOk] at hok; omega
  | some e => rw [hf] at hok; exact ⟨e, rfl, hok.1, hok.2.2⟩

/-- Changing the record of `d` in place, when only links to `d` come and go and the
locked total moves with the record. -/
theorem of_modify (h : CasInv L c) {e : CasRecord D V} (he : c.map.find? d = some e)
    (f : CasRecord D V → CasRecord D V) (hf : ∀ e, (f e).digest = e.digest)
    (hsize : (f e).deepSize = e.deepSize)
    (hother : ∀ d' ≠ d, L'.refs d' = L.refs d' ∧ L'.locked d' = L.locked d')
    (hd : CasOk (L'.refs d) (L'.locked d) (some (f e))) {total : ℤ}
    (htotal : total = c.totalLockedSize - e.lockedSize + (f e).lockedSize) :
    CasInv L' ⟨c.map.modify d f hf, c.totalSize, total⟩ where
  counts d' := by
    rw [Table.find?_modify]
    by_cases hd' : d' = d
    · subst hd'
      simpa [he] using hd
    · rw [if_neg hd', (hother d' hd').1, (hother d' hd').2]
      exact h.counts d'
  total := by
    rw [Table.sum_modify he, hsize, h.total]
    omega
  locked := by rw [Table.sum_modify he, htotal, h.locked]

theorem ensureRecord (h : CasInv L c) (d : D) (v : V) (size : ℕ) :
    CasInv ((d, false) :: L) (c.ensureRecord d v size) := by
  rw [CasCache.ensureRecord]
  by_cases hd : c.map.Has d
  · obtain ⟨e, he⟩ := Option.isSome_iff_exists.mp (Table.find?_isSome.mpr hd)
    have hok := h.counts d
    rw [he] at hok
    rw [if_pos hd]
    refine h.of_modify he CasRecord.addRef CasRecord.addRef_digest rfl
      (fun d' hd' => by simp [hd'.symm]) ?_ ?_
    · simp_all [CasOk]
    · simp [CasRecord.lockedSize]
  · rw [if_neg hd]
    -- a digest without a record has no links, so the new record has exactly one
    have hrefs : L.refs d = 0 := by
      have := h.counts d
      rwa [Table.not_has.mp hd] at this
    have hlocked : L.locked d = 0 := by
      have := L.locked_le_refs d
      omega
    refine ⟨fun d' => ?_, ?_, ?_⟩
    · rw [Table.find?_insert hd]
      by_cases hd' : d' = d
      · subst hd'
        simp [CasOk, hrefs, hlocked]
      · simpa [hd', Ne.symm hd'] using h.counts d'
    · rw [Table.sum_insert hd, h.total]
    · rw [Table.sum_insert hd, h.locked]
      simp [CasRecord.lockedSize]

theorem addLock (h : CasInv ((d, false) :: L) c) : CasInv ((d, true) :: L) (c.addLock d) := by
  obtain ⟨e, he, hr, hl⟩ := h.find (d := d) (by simp)
  simp only [Links.refs_cons, Links.locked_cons, if_true, Prod.mk.injEq, Bool.false_eq_true,
    and_false, if_false, add_zero] at hr hl
  have hother : ∀ d' ≠ d, Links.refs ((d, true) :: L) d' = Links.refs ((d, false) :: L) d'
      ∧ Links.locked ((d, true) :: L) d' = Links.locked ((d, false) :: L) d' :=
    fun d' hd' => by simp [hd'.symm]
  rw [CasCache.addLock]
  simp only [Table.find?_modify_self, he, Option.map_some, CasRecord.addLock_lockCount]
  by_cases h0 : L.locked d = 0
  · rw [if_pos (by omega)]
    refine h.of_modify he CasRecord.addLock CasRecord.addLock_digest rfl hother ?_ ?_
    · simp_all [CasOk]
    · simp [CasRecord.lockedSize, CasRecord.addLock_lockCount, CasRecord.addLock_deepSize, hl, h0]
  · rw [if_neg (by omega)]
    refine h.of_modify he CasRecord.addLock CasRecord.addLock_digest rfl hother ?_ ?_
    · simp_all [CasOk]
    · simp only [CasRecord.lockedSize, CasRecord.addLock_lockCount, CasRecord.addLock_deepSize, hl]
      rw [if_pos (by omega), if_pos (by omega)]
      omega

theorem delLock (h : CasInv ((d, true) :: L) c) : CasInv ((d, false) :: L) (c.delLock d) := by
  obtain ⟨e, he, hr, hl⟩ := h.find (d := d) (by simp)
  simp only [Links.refs_cons, Links.locked_cons, if_true] at hr hl
  have hother : ∀ d' ≠ d, Links.refs ((d, false) :: L) d' = Links.refs ((d, true) :: L) d'
      ∧ Links.locked ((d, false) :: L) d' = Links.locked ((d, true) :: L) d' :=
    fun d' hd' => by simp [hd'.symm]
  rw [CasCache.delLock]
  simp only [Table.find?_modify_self, he, Option.map_some, CasRecord.delLock_lockCount]
  by_cases h0 : L.locked d = 0
  · rw [if_pos (by omega)]
    refine h.of_modify he CasRecord.delLock CasRecord.delLock_digest rfl hother ?_ ?_
    · simp_all [CasOk]
    · simp [CasRecord.lockedSize, CasRecord.delLock_lockCount, CasRecord.delLock_deepSize, hl, h0]
  · rw [if_neg (by omega)]
    refine h.of_modify he CasRecord.delLock CasRecord.delLock_digest rfl hother ?_ ?_
    · simp_all [CasOk]
    · simp only [CasRecord.lockedSize, CasRecord.delLock_lockCount, CasRecord.delLock_deepSize, hl]
      rw [if_pos (by omega), if_pos (by omega)]
      omega

theorem dropRef (h : CasInv ((d, false) :: L) c) : CasInv L (c.dropRef d) := by
  obtain ⟨e, he, hr, hl⟩ := h.find (d := d) (by simp)
  simp only [Links.refs_cons, Links.locked_cons, if_true, Prod.mk.injEq, Bool.false_eq_true,
    and_false, if_false, add_zero] at hr hl
  have hother : ∀ d' ≠ d, L.refs d' = Links.refs ((d, false) :: L) d'
      ∧ L.locked d' = Links.locked ((d, false) :: L) d' := fun d' hd' => by simp [hd'.symm]
  have hfind : (c.map.modify d CasRecord.delRef CasRecord.delRef_digest).find? d
      = some e.delRef := by
    simp [he]
  rw [CasCache.dropRef]
  simp only [hfind, CasRecord.delRef_refCount]
  by_cases h0 : L.refs d = 0
  · -- the last link: the record goes, and it is not locked
    have hlocked : e.lockedSize = 0 := by
      have := L.locked_le_refs d
      simp only [CasRecord.lockedSize, hl]
      rw [if_neg (by omega)]
    have hdigest : e.digest = d := (Table.find?_eq_some.mp he).2
    rw [if_pos (by omega)]
    simp only [CasCache.delRecord, CasRecord.delRef, hdigest]
    refine ⟨fun d' => ?_, ?_, ?_⟩
    · rw [Table.find?_erase]
      by_cases hd' : d' = d
      · subst hd'
        simpa [CasOk] using h0
      · rw [if_neg hd', Table.find?_modify_ne hd', (hother d' hd').1,
          (hother d' hd').2]
        exact h.counts d'
    · rw [Table.sum_erase hfind, Table.sum_modify he, h.total]
      simp
    · rw [Table.sum_erase hfind, Table.sum_modify he, h.locked, hlocked]
      simp only [CasRecord.lockedSize] at hlocked ⊢
      omega
  · rw [if_neg (by omega)]
    refine h.of_modify he CasRecord.delRef CasRecord.delRef_digest rfl hother ?_ ?_
    · simp only [CasOk, CasRecord.delRef_refCount, CasRecord.delRef_lockCount]
      omega
    · simp [CasRecord.lockedSize]

end CasInv
end Cas

/-! ## The action cache -/

section Ac
variable {K D V : Type*} [DecidableEq K]

/-- The link of an AC record, if it points to a CAS record. -/
def CacheRecord.link (r : CacheRecord K D) : Option (D × Bool) :=
  r.casRecord.map fun d => (d, decide (0 < r.lockCount))

/-- The links of all AC records. -/
def links (t : Table (CacheRecord.key : CacheRecord K D → K)) : Links D :=
  t.rows.filterMap CacheRecord.link

section Links
variable {t : Table (CacheRecord.key : CacheRecord K D → K)} {k : K} {r : CacheRecord K D}
  {f : CacheRecord K D → CacheRecord K D} (hf : ∀ r, (f r).key = r.key)

theorem links_perm_erase (h : t.find? k = some r) :
    (links t).Perm (r.link.toList ++ links (t.erase k)) := by
  refine ((Table.perm_cons_erase h).filterMap _).trans (.of_eq ?_)
  cases hr : r.link <;> simp [links, hr]

theorem links_perm_modify (h : t.find? k = some r) :
    (links (t.modify k f hf)).Perm ((f r).link.toList ++ links (t.erase k)) := by
  refine ((Table.perm_modify h).filterMap _).trans (.of_eq ?_)
  cases hr : (f r).link <;> simp [links, hr]

/-- A change that leaves the link of the record alone. -/
theorem links_perm_modify_of_eq (h : t.find? k = some r) (he : (f r).link = r.link) :
    (links t).Perm (links (t.modify k f hf)) := by
  refine (links_perm_erase h).trans (List.Perm.symm ?_)
  rw [← he]
  exact links_perm_modify hf h

theorem links_insert (h : ¬ t.Has r.key) (hr : r.casRecord = none) :
    links (t.insert r) = links t := by
  simp [links, Table.rows_insert h, CacheRecord.link, hr]

end Links

/-- An AC record agrees with the number `n` of pointers and locks that refer to it,
`m` of them locks, and with the number `e` of times it is on the eviction list. -/
def RecordOk (n m e : ℕ) : Option (CacheRecord K D) → Prop
  | none => n = 0 ∧ m = 0 ∧ e = 0
  | some r => r.refCount = n ∧ r.lockCount = m ∧ m ≤ n ∧ e = (if n = 0 then 1 else 0)
      ∧ (r.evictionListed = true ↔ n = 0) ∧ (r.casRecord.isSome ↔ r.state = .ready)

variable [DecidableEq D]

/-- The cache counters, relative to the number of references to and of locks on each
key. -/
structure Inv (refs lks : K → ℕ) (c : ImmutableCache K D V) : Prop where
  records : ∀ k, RecordOk (refs k) (lks k) (c.evictionList.count k) (c.records.find? k)
  cas : CasInv (links c.records) c.cas

namespace Inv

variable {refs lks refs' lks' : K → ℕ} {c : ImmutableCache K D V} {k : K}

theorem congr (h : Inv refs lks c) (hr : ∀ k, refs' k = refs k) (hl : ∀ k, lks' k = lks k) :
    Inv refs' lks' c := by
  rwa [funext hr, funext hl]

theorem find (h : Inv refs lks c) (hk : 0 < refs k) :
    ∃ r, c.records.find? k = some r := by
  have hok := h.records k
  cases hf : c.records.find? k with
  | none => rw [hf] at hok; simp only [RecordOk] at hok; omega
  | some r => exact ⟨r, rfl⟩

/-- Only the record of `k` changes, and not its link. -/
theorem of_modify (h : Inv refs lks c) {r : CacheRecord K D} (hr : c.records.find? k = some r)
    (f : CacheRecord K D → CacheRecord K D) (hf : ∀ r, (f r).key = r.key)
    (hlink : (f r).link = r.link) {l : List K}
    (hother : ∀ k' ≠ k, refs' k' = refs k' ∧ lks' k' = lks k'
      ∧ l.count k' = c.evictionList.count k')
    (hk : RecordOk (refs' k) (lks' k) (l.count k) (some (f r))) :
    Inv refs' lks' { c with records := c.records.modify k f hf, evictionList := l } where
  records k' := by
    rw [Table.find?_modify]
    by_cases hk' : k' = k
    · subst hk'
      simpa [hr] using hk
    · rw [if_neg hk', (hother k' hk').1, (hother k' hk').2.1, (hother k' hk').2.2]
      exact h.records k'
  cas := h.cas.perm (links_perm_modify_of_eq hf hr hlink)

theorem addRef (h : Inv refs lks c) (hk : c.records.Has k) :
    Inv (fun k' => refs k' + if k' = k then 1 else 0) lks (c.addRefToCacheRecord k) := by
  obtain ⟨r, hr⟩ := Option.isSome_iff_exists.mp (Table.find?_isSome.mpr hk)
  have hok := h.records k
  rw [hr] at hok
  obtain ⟨hn, hm, hle, he, hlist, hready⟩ := hok
  rw [ImmutableCache.addRefToCacheRecord]
  simp only [ImmutableCache.update, Table.find?_modify_self, hr, Option.map_some]
  by_cases h0 : refs k = 0
  · -- the record is on the eviction list and leaves it
    rw [if_pos (hlist.mpr h0)]
    rw [ImmutableCache.removeFromEvictionList]
    simp only [Table.modify_modify]
    refine h.of_modify hr _ (by intro r; rfl) (by rfl) ?_ ?_
    · intro k' hk'
      simp [hk', List.count_erase_of_ne hk']
    · simp_all [RecordOk]
  · rw [if_neg (by simp [hlist, h0])]
    refine h.of_modify hr _ (by intro r; rfl) (by rfl) ?_ ?_
    · intro k' hk'
      simp [hk']
    · simp_all [RecordOk]
      omega

/-- One turn of the eviction loop. -/
theorem evictFront (h : Inv refs lks c) {ks : List K} (hl : c.evictionList = k :: ks) :
    Inv refs lks (c.evictFront k) := by
  have hok := h.records k
  cases hr : c.records.find? k with
  | none => rw [hr, hl] at hok; simp [RecordOk] at hok
  | some r =>
      rw [hr, hl] at hok
      obtain ⟨hn, hm, hle, he, -, -⟩ := hok
      have h0 : refs k = 0 := by
        by_contra h0
        simp [h0] at he
      have hks : ks.count k = 0 := by simpa [h0] using he
      constructor
      · intro k'
        simp only [ImmutableCache.evictFront, hl, List.tail_cons, Table.find?_erase]
        by_cases hk' : k' = k
        · subst hk'
          rw [if_pos rfl]
          exact ⟨h0, by omega, hks⟩
        · have hold := h.records k'
          rw [hl, List.count_cons_of_ne (Ne.symm hk')] at hold
          rwa [if_neg hk']
      · have hcas := h.cas.perm (links_perm_erase hr)
        simp only [ImmutableCache.evictFront, hr, Option.bind_some]
        cases hd : r.casRecord with
        | none => simpa [CacheRecord.link, hd] using hcas
        | some d =>
            have hlock : ¬ 0 < r.lockCount := by omega
            simp only [CacheRecord.link, hd, Option.map_some, hlock, decide_false,
              Option.toList_some, List.singleton_append] at hcas
            exact hcas.dropRef

theorem reduceLoop (desiredSize : ℕ) (ks : List K) (h : Inv refs lks c)
    (hl : c.evictionList = ks) : Inv refs lks (ImmutableCache.reduceLoop desiredSize ks c) := by
  induction ks generalizing c with
  | nil => exact h
  | cons k ks ih =>
      rw [ImmutableCache.reduceLoop]
      split
      · refine ih (h.evictFront hl) ?_
        simp [ImmutableCache.evictFront, hl]
      · exact h

theorem reduceMemoryCacheSize (h : Inv refs lks c) (desiredSize : ℕ) :
    Inv refs lks (c.reduceMemoryCacheSize desiredSize) :=
  h.reduceLoop desiredSize _ rfl

/-- `del_ref_from_cache_record` by the number of references that are left. -/
theorem delRef_eq (h : Inv refs lks c) (hk : 0 < refs k) :
    c.delRefFromCacheRecord k
      = if refs k = 1 then (c.dropLastRef k).reduceMemoryCacheSize c.unusedSizeLimit
        else c.update k (fun r => { r with refCount := r.refCount - 1 }) fun _ => rfl := by
  obtain ⟨r, hr⟩ := h.find hk
  have hn : r.refCount = refs k := by
    have hok := h.records k
    rw [hr] at hok
    exact hok.1
  rw [ImmutableCache.delRefFromCacheRecord]
  simp only [ImmutableCache.update, Table.find?_modify_self, hr, Option.map_some]
  by_cases h1 : refs k = 1
  · rw [if_pos (by omega), if_pos h1]
    rfl
  · rw [if_neg (by omega), if_neg h1]

theorem dropLastRef (h : Inv refs lks c) (h1 : refs k = 1) (hlk : lks k < refs k) :
    Inv (fun k' => refs k' - if k' = k then 1 else 0) lks (c.dropLastRef k) := by
  obtain ⟨r, hr⟩ := h.find (k := k) (by omega)
  have hok := h.records k
  rw [hr] at hok
  obtain ⟨hn, hm, hle, he, hlist, hready⟩ := hok
  rw [ImmutableCache.dropLastRef, ImmutableCache.addToEvictionList]
  simp only [ImmutableCache.update, Table.modify_modify]
  refine h.of_modify hr _ (by intro r; rfl) (by rfl) ?_ ?_
  · intro k' hk'
    simp [hk', List.count_append, Ne.symm hk']
  · simp_all [RecordOk]

theorem delRef (h : Inv refs lks c) (hk : 0 < refs k) (hlk : lks k < refs k) :
    Inv (fun k' => refs k' - if k' = k then 1 else 0) lks (c.delRefFromCacheRecord k) := by
  rw [h.delRef_eq hk]
  by_cases h1 : refs k = 1
  · rw [if_pos h1]
    apply reduceMemoryCacheSize
    exact h.dropLastRef h1 hlk
  · obtain ⟨r, hr⟩ := h.find hk
    have hok := h.records k
    rw [hr] at hok
    obtain ⟨hn, hm, hle, he, hlist, hready⟩ := hok
    have h2 : refs k - 1 ≠ 0 := by omega
    rw [if_neg h1]
    refine h.of_modify hr _ (by intro r; rfl) (by rfl) ?_ ?_
    · intro k' hk'
      simp [hk']
    · simp_all [RecordOk]
      omega

/-- The record of `k` changes with its link, and the CAS along with it. -/
theorem of_modify_link (h : Inv refs lks c) {r : CacheRecord K D}
    (hr : c.records.find? k = some r) (f : CacheRecord K D → CacheRecord K D)
    (hf : ∀ r, (f r).key = r.key) {cas : CasCache D V}
    (hother : ∀ k' ≠ k, lks' k' = lks k')
    (hk : RecordOk (refs k) (lks' k) (c.evictionList.count k) (some (f r)))
    (hcas : ∀ L, CasInv (r.link.toList ++ L) c.cas → CasInv ((f r).link.toList ++ L) cas) :
    Inv refs lks' { c with records := c.records.modify k f hf, cas := cas } where
  records k' := by
    rw [Table.find?_modify]
    by_cases hk' : k' = k
    · subst hk'
      simpa [hr] using hk
    · rw [if_neg hk', hother k' hk']
      exact h.records k'
  cas := (hcas _ (h.cas.perm (links_perm_erase hr))).perm (links_perm_modify hf hr).symm

theorem addLock (h : Inv refs lks c) (hk : lks k < refs k) :
    Inv refs (fun k' => lks k' + if k' = k then 1 else 0) (c.addLockToCacheRecord k) := by
  obtain ⟨r, hr⟩ := h.find (k := k) (by omega)
  have hok := h.records k
  rw [hr] at hok
  obtain ⟨hn, hm, hle, he, hlist, hready⟩ := hok
  have hother : ∀ k' ≠ k, lks k' + (if k' = k then 1 else 0) = lks k' := by
    intro k' hk'
    simp [hk']
  have hlocked : RecordOk (refs k) (lks k + if k = k then 1 else 0) (c.evictionList.count k)
      (some { r with lockCount := r.lockCount + 1 }) := by
    rw [if_pos rfl]
    exact ⟨hn, by simp [hm], by omega, he, hlist, hready⟩
  rw [ImmutableCache.addLockToCacheRecord]
  simp only [ImmutableCache.update, Table.find?_modify_self, hr, Option.map_some]
  cases hd : r.casRecord with
  | none =>
      refine h.of_modify_link hr _ (by intro r; rfl) hother hlocked ?_
      simp [CacheRecord.link, hd]
  | some d =>
      dsimp only
      by_cases h0 : lks k = 0
      · rw [if_pos (by omega)]
        refine h.of_modify_link hr _ (by intro r; rfl) hother hlocked fun L hL => ?_
        simp only [CacheRecord.link, hd, hm, h0, Option.map_some, Option.toList_some] at hL ⊢
        exact hL.addLock
      · rw [if_neg (by omega)]
        refine h.of_modify_link hr _ (by intro r; rfl) hother hlocked fun L hL => ?_
        have hpos : 0 < r.lockCount := by omega
        have hpos' : 0 < r.lockCount + 1 := by omega
        simpa [CacheRecord.link, hd, hpos, hpos'] using hL

theorem delLock (h : Inv refs lks c) (hk : 0 < lks k) :
    Inv refs (fun k' => lks k' - if k' = k then 1 else 0) (c.delLockFromCacheRecord k) := by
  have hok := h.records k
  obtain ⟨r, hr⟩ : ∃ r, c.records.find? k = some r := by
    refine h.find (k := k) ?_
    cases hr : c.records.find? k with
    | none => rw [hr] at hok; simp only [RecordOk] at hok; omega
    | some r => rw [hr] at hok; simp only [RecordOk] at hok; omega
  rw [hr] at hok
  obtain ⟨hn, hm, hle, he, hlist, hready⟩ := hok
  have hother : ∀ k' ≠ k, lks k' - (if k' = k then 1 else 0) = lks k' := by
    intro k' hk'
    simp [hk']
  have hlocked : RecordOk (refs k) (lks k - if k = k then 1 else 0) (c.evictionList.count k)
      (some { r with lockCount := r.lockCount - 1 }) := by
    rw [if_pos rfl]
    exact ⟨hn, by simp only [hm]; omega, by omega, he, hlist, hready⟩
  rw [ImmutableCache.delLockFromCacheRecord]
  simp only [ImmutableCache.update, Table.find?_modify_self, hr, Option.map_some]
  cases hd : r.casRecord with
  | none =>
      refine h.of_modify_link hr _ (by intro r; rfl) hother hlocked ?_
      simp [CacheRecord.link, hd]
  | some d =>
      dsimp only
      by_cases h1 : lks k = 1
      · rw [if_pos (by omega)]
        refine h.of_modify_link hr _ (by intro r; rfl) hother hlocked fun L hL => ?_
        simp only [CacheRecord.link, hd, hm, h1, Option.map_some, Option.toList_some] at hL ⊢
        exact hL.delLock
      · rw [if_neg (by omega)]
        refine h.of_modify_link hr _ (by intro r; rfl) hother hlocked fun L hL => ?_
        have hpos : 0 < r.lockCount := by omega
        have hpos' : 1 < r.lockCount := by omega
        simpa [CacheRecord.link, hd, hpos, hpos'] using hL

theorem retryFailed (h : Inv refs lks c) (k : K) : Inv refs lks (c.retryFailed k) := by
  cases hr : c.records.find? k with
  | none =>
      have hk : ¬ c.records.Has k := Table.not_has.mpr hr
      simp only [ImmutableCache.retryFailed, ImmutableCache.update, Table.modify_of_not_has hk]
      exact h
  | some r =>
      have hok := h.records k
      rw [hr] at hok
      refine h.of_modify hr _ _ ?_ (fun _ _ => ⟨rfl, rfl, rfl⟩) ?_
      · split <;> rfl
      · split
        · next hs => simpa [RecordOk, hs] using hok
        · exact hok

/-- A new record gets its first reference before anything else sees it. -/
theorem acquire_new (h : Inv refs lks c) (hk : ¬ c.records.Has k) :
    Inv (fun k' => refs k' + if k' = k then 1 else 0) lks (c.acquireCacheRecord k) := by
  have hok := h.records k
  rw [Table.not_has.mp hk] at hok
  obtain ⟨hn, hm, he⟩ := hok
  rw [ImmutableCache.acquireCacheRecord_of_not_has hk]
  let r : CacheRecord K D := { key := k, refCount := 1 }
  have hk : ¬ c.records.Has r.key := hk
  refine ⟨fun k' => ?_, (links_insert hk rfl : links (c.records.insert r) = _) ▸ h.cas⟩
  rw [Table.find?_insert hk]
  by_cases hk' : k' = k
  · subst hk'
    simp [r, RecordOk, hn, hm, he]
  · simpa [r, hk'] using h.records k'

theorem acquire (h : Inv refs lks c) (k : K) :
    Inv (fun k' => refs k' + if k' = k then 1 else 0) lks (c.acquireCacheRecord k) := by
  by_cases hk : c.records.Has k
  · unfold ImmutableCache.acquireCacheRecord ImmutableCache.findOrCreateRecord
    rw [if_pos hk]
    have hhit : Inv refs lks { c with hitCount := c.hitCount + 1 } := ⟨h.records, h.cas⟩
    refine (hhit.retryFailed k).addRef ?_
    simpa only [ImmutableCache.retryFailed, ImmutableCache.update, Table.has_modify] using hk
  · exact h.acquire_new hk

/-- A loading record points to no CAS record. -/
theorem casRecord_of_loading (h : Inv refs lks c) (hk : c.stateOf k = some .loading) :
    ∃ r, c.records.find? k = some r ∧ r.state = .loading ∧ r.casRecord = none := by
  obtain ⟨r, hr, hs⟩ := Option.map_eq_some_iff.mp hk
  have hok := h.records k
  rw [hr] at hok
  obtain ⟨-, -, -, -, -, hready⟩ := hok
  refine ⟨r, hr, hs, ?_⟩
  rw [hs] at hready
  simpa using hready

theorem recordValue (h : Inv refs lks c) (hk : c.stateOf k = some .loading) (d : D) (v : V)
    (size : ℕ) : Inv refs lks (c.recordValueUntyped k d v size) := by
  obtain ⟨r, hr, hs, hd⟩ := h.casRecord_of_loading hk
  have hok := h.records k
  rw [hr] at hok
  rw [ImmutableCache.recordValueUntyped]
  simp only [hr]
  refine h.of_modify_link hr _ (by intro r; rfl) (fun _ _ => rfl) ?_ ?_
  · simpa [RecordOk, hs, hd] using hok
  · intro L hL
    simp only [CacheRecord.link, hd, Option.map_none, Option.toList_none, List.nil_append,
      Option.map_some, Option.toList_some, List.singleton_append] at hL ⊢
    by_cases hl : 0 < r.lockCount
    · simp only [hl, decide_true, if_true]
      exact (hL.ensureRecord d v size).addLock
    · simp only [hl, decide_false, Bool.false_eq_true, if_false]
      exact hL.ensureRecord d v size

theorem recordFailure (h : Inv refs lks c) (hk : c.stateOf k = some .loading) :
    Inv refs lks (c.recordFailure k) := by
  obtain ⟨r, hr, hs, hd⟩ := h.casRecord_of_loading hk
  have hok := h.records k
  rw [hr] at hok
  refine h.of_modify hr _ (by intro r; rfl) (by rfl) (fun _ _ => ⟨rfl, rfl, rfl⟩) ?_
  simpa [RecordOk, hs, hd] using hok

end Inv

/-! ## Runs -/

namespace System

variable {digestOf : V → D} {deepSizeof : V → ℕ} {s s' : System K D V}

/-- The references to a key: its live pointers and locks. -/
def refs (s : System K D V) (k : K) : ℕ := s.ptrs.count k + s.locks.count k

/-- The locks on a key. -/
def lks (s : System K D V) (k : K) : ℕ := s.locks.count k

omit [DecidableEq D] in
/-- A live pointer is a reference besides those of the locks. -/
theorem lks_lt_refs {k : K} (hk : k ∈ s.ptrs) : s.lks k < s.refs k := by
  have hpos : 0 < s.ptrs.count k := List.count_pos_iff.mpr hk
  simp only [refs, lks]
  omega

/-- The invariant of the cache for its live pointers and locks. -/
def Ok (s : System K D V) : Prop := Inv s.refs s.lks s.cache

theorem ok_init (unusedSizeLimit : ℕ) : (init unusedSizeLimit : System K D V).Ok where
  records k := by simp [init, refs, lks, RecordOk, Table.find?]
  cas := {
    counts := fun d => by simp [init, links, CasOk, Links.refs, Table.find?]
    total := by simp [init]
    locked := by simp [init] }

private theorem count_cons_key (k k' : K) (l : List K) :
    (k :: l).count k' = l.count k' + if k' = k then 1 else 0 := by
  by_cases h : k' = k
  · simp [h]
  · simp [h, List.count_cons_of_ne (Ne.symm h)]

private theorem count_erase_key (k k' : K) (l : List K) :
    (l.erase k).count k' = l.count k' - if k' = k then 1 else 0 := by
  by_cases h : k' = k
  · simp [h]
  · simp [h, List.count_erase_of_ne h]

theorem ok_step (h : s.Ok) {a : Action K V} (hs : step digestOf deepSizeof s a = some s') :
    s'.Ok := by
  rw [Ok] at h ⊢
  cases a with
  | acquire k =>
      obtain rfl := Option.some.inj hs
      refine (h.acquire k).congr (fun k' => ?_) fun _ => rfl
      simp only [refs, count_cons_key]
      omega
  | release k =>
      simp only [step, Option.ite_none_right_eq_some, Option.some.injEq] at hs
      obtain ⟨hk, rfl⟩ := hs
      have hlt := lks_lt_refs hk
      refine (h.delRef (by omega) hlt).congr (fun k' => ?_) fun _ => rfl
      simp only [refs, lks] at hlt
      simp only [refs, count_erase_key]
      split
      · next hk' => rw [hk']; omega
      · rfl
  | lock k =>
      simp only [step, Option.ite_none_right_eq_some, Option.some.injEq] at hs
      obtain ⟨hk, rfl⟩ := hs
      have hpos : 0 < s.refs k := by
        simp only [refs]
        rcases hk with hk | hk
        · have := List.count_pos_iff.mpr hk
          omega
        · have := List.count_pos_iff.mpr hk
          omega
      obtain ⟨r, hr⟩ := h.find hpos
      refine ((h.addRef (Table.find?_isSome.mp (by simp [hr]))).addLock (k := k) ?_).congr ?_ ?_
      · simp only [refs, lks, if_true]
        omega
      · intro k'
        simp only [refs, count_cons_key]
        omega
      · intro k'
        simp only [lks, count_cons_key]
  | unlock k =>
      simp only [step, Option.ite_none_right_eq_some, Option.some.injEq] at hs
      obtain ⟨hk, rfl⟩ := hs
      have hpos : 0 < s.lks k := List.count_pos_iff.mpr hk
      have hle : s.lks k ≤ s.refs k := by
        simp only [refs, lks]
        omega
      refine ((h.delLock hpos).delRef (k := k) (by omega) ?_).congr ?_ ?_
      · simp only [if_true]
        omega
      · intro k'
        simp only [refs, count_erase_key]
        split
        · next hk' => subst hk'; simp only [lks] at hpos; omega
        · rfl
      · intro k'
        simp only [lks, count_erase_key]
  | recordValue k v =>
      simp only [step, Option.ite_none_right_eq_some, Option.some.injEq] at hs
      obtain ⟨hk, rfl⟩ := hs
      exact h.recordValue hk.2 _ _ _
  | recordFailure k =>
      simp only [step, Option.ite_none_right_eq_some, Option.some.injEq] at hs
      obtain ⟨hk, rfl⟩ := hs
      exact h.recordFailure hk.2
  | reduce n =>
      obtain rfl := Option.some.inj hs
      exact h.reduceMemoryCacheSize n
  | clearUnused =>
      obtain rfl := Option.some.inj hs
      exact h.reduceMemoryCacheSize 0

theorem ok_of_reachable {ok : System K D V → Action K V → Prop}
    (h : Transition.Reachable (step digestOf deepSizeof) ok (Set.range init) s) : s.Ok := by
  refine h.invariant ?_ fun s s' a hs _ => ok_step hs
  rintro _ ⟨limit, rfl⟩
  exact ok_init limit

end System

/-- The representation invariant of the cache, as a reader of its fields sees it. -/
structure ImmutableCache.Consistent (c : ImmutableCache K D V) : Prop where
  evicted_iff : ∀ r ∈ c.records, r.key ∈ c.evictionList ↔ r.refCount = 0
  listed_iff : ∀ r ∈ c.records, r.evictionListed = true ↔ r.key ∈ c.evictionList
  evicted_has : ∀ k ∈ c.evictionList, c.records.Has k
  evicted_once : c.evictionList.Nodup
  lock_le_ref : ∀ r ∈ c.records, 0 ≤ r.lockCount ∧ r.lockCount ≤ r.refCount
  cas_iff_ready : ∀ r ∈ c.records, r.casRecord.isSome ↔ r.state = .ready
  cas_has : ∀ r ∈ c.records, ∀ d, r.casRecord = some d → c.cas.map.Has d
  casRef : ∀ e ∈ c.cas.map, 0 < e.refCount
    ∧ e.refCount = c.records.rows.countP (·.casRecord = some e.digest)
  casLock : ∀ e ∈ c.cas.map, e.lockCount
    = c.records.rows.countP fun r => r.casRecord = some e.digest ∧ 0 < r.lockCount
  totalSize_eq : c.cas.totalSize = c.cas.map.sum fun e => e.deepSize
  totalLockedSize_eq : c.cas.totalLockedSize
    = (c.cas.map.filter fun e => 0 < e.lockCount).sum fun e => e.deepSize
  locked_le : c.cas.totalLockedSize ≤ c.cas.totalSize
  unlocked_nonneg : 0 ≤ c.cas.totalUnlockedSize

omit [DecidableEq D] in
/-- A record of the table satisfies the invariant of its key. -/
theorem RecordOk.of_mem {refs lks : K → ℕ} {c : ImmutableCache K D V}
    (h : ∀ k, RecordOk (refs k) (lks k) (c.evictionList.count k) (c.records.find? k))
    {r : CacheRecord K D} (hr : r ∈ c.records) :
    RecordOk (refs r.key) (lks r.key) (c.evictionList.count r.key) (some r) := by
  have := h r.key
  rwa [Table.find?_eq_some.mpr ⟨hr, rfl⟩] at this

omit [DecidableEq K] in
theorem links_refs (t : Table (CacheRecord.key : CacheRecord K D → K)) (d : D) :
    (links t).refs d = t.rows.countP (·.casRecord = some d) := by
  rw [links, Links.refs, List.countP_filterMap]
  refine List.countP_congr fun r _ => ?_
  cases hr : r.casRecord <;> simp [CacheRecord.link, hr]

omit [DecidableEq K] in
theorem links_locked (t : Table (CacheRecord.key : CacheRecord K D → K)) (d : D) :
    (links t).locked d = t.rows.countP fun r => r.casRecord = some d ∧ 0 < r.lockCount := by
  rw [links, Links.locked, List.count, List.countP_filterMap]
  refine List.countP_congr fun r _ => ?_
  cases hr : r.casRecord <;> simp [CacheRecord.link, hr]

omit [DecidableEq D] in
theorem sum_lockedSize (t : Table (CasRecord.digest : CasRecord D V → D)) :
    t.sum CasRecord.lockedSize = (t.filter fun e => 0 < e.lockCount).sum fun e => e.deepSize := by
  simp only [Table.sum, Table.filter]
  induction t.rows with
  | nil => rfl
  | cons e rows ih =>
      by_cases he : 0 < e.lockCount
      · simp [he, ih, CasRecord.lockedSize]
      · simp [he, ih, CasRecord.lockedSize]

theorem Inv.consistent {refs lks : K → ℕ} {c : ImmutableCache K D V} (h : Inv refs lks c) :
    c.Consistent := by
  have hcas : ∀ e ∈ c.cas.map, CasOk ((links c.records).refs e.digest)
      ((links c.records).locked e.digest) (some e) := fun e he => by
    have := h.cas.counts e.digest
    rwa [Table.find?_eq_some.mpr ⟨he, rfl⟩] at this
  have hle : c.cas.totalLockedSize ≤ c.cas.totalSize := by
    rw [h.cas.total, h.cas.locked]
    refine Table.sum_le_sum fun e _ => ?_
    simp only [CasRecord.lockedSize]
    split <;> omega
  constructor
  case evicted_iff =>
    intro r hr
    obtain ⟨hn, -, -, he, -, -⟩ := RecordOk.of_mem h.records hr
    rw [← List.count_pos_iff, he, hn]
    split <;> omega
  case listed_iff =>
    intro r hr
    obtain ⟨hn, -, -, he, hl, -⟩ := RecordOk.of_mem h.records hr
    rw [hl, ← List.count_pos_iff, he]
    split <;> omega
  case evicted_has =>
    intro k hk
    have hok := h.records k
    cases hr : c.records.find? k with
    | none =>
        rw [hr] at hok
        exact absurd hok.2.2 (by simpa [List.count_eq_zero] using hk)
    | some r => exact Table.find?_isSome.mp (by simp [hr])
  case evicted_once =>
    rw [List.nodup_iff_count_le_one]
    intro k
    have hok := h.records k
    cases hr : c.records.find? k with
    | none => rw [hr] at hok; simp only [RecordOk] at hok; omega
    | some r =>
        rw [hr] at hok
        simp only [RecordOk] at hok
        rw [hok.2.2.2.1]
        split <;> omega
  case lock_le_ref =>
    intro r hr
    obtain ⟨hn, hm, hle, -, -, -⟩ := RecordOk.of_mem h.records hr
    omega
  case cas_iff_ready =>
    intro r hr
    exact (RecordOk.of_mem h.records hr).2.2.2.2.2
  case cas_has =>
    intro r hr d hd
    obtain ⟨e, he, -, -⟩ := h.cas.find (d := d) (by
      rw [links_refs, List.countP_pos_iff]
      exact ⟨r, hr, by simp [hd]⟩)
    exact Table.find?_isSome.mp (by simp [he])
  case casRef =>
    intro e he
    obtain ⟨hr, hpos, -⟩ := hcas e he
    rw [links_refs] at hr hpos
    omega
  case casLock =>
    intro e he
    rw [← links_locked]
    exact (hcas e he).2.2
  case totalSize_eq => exact h.cas.total
  case totalLockedSize_eq => rw [h.cas.locked, sum_lockedSize]
  case locked_le => exact hle
  case unlocked_nonneg =>
    simp only [CasCache.totalUnlockedSize]
    omega

/-- Every reachable cache is consistent. -/
theorem consistent_of_reachable {digestOf : V → D} {deepSizeof : V → ℕ} {s : System K D V}
    (h : Transition.Reachable (System.step digestOf deepSizeof) (fun _ _ => True)
      (Set.range System.init) s) : s.cache.Consistent :=
  (System.ok_of_reachable h).consistent

/-- Two keys share a CAS record while one of them is locked, the other one is evicted,
and a third key fails and is acquired again. -/
def sharedRun : List (Action ℕ ℕ) :=
  [.acquire 0, .acquire 1, .lock 0, .recordValue 0 42, .recordValue 1 42, .release 1,
    .acquire 2, .recordFailure 2, .acquire 2, .clearUnused]

theorem consistent_sharedRun :
    ∃ s, Transition.run (System.step (fun v => v % 10) id) (System.init 5) sharedRun = some s
      ∧ s.cache.Consistent := by
  have hrun : (Transition.run (System.step (fun v => v % 10) id) (System.init 5)
      sharedRun).isSome = true := by decide
  obtain ⟨s, hs⟩ := Option.isSome_iff_exists.mp hrun
  exact ⟨s, hs, consistent_of_reachable (.run (.start (Set.mem_range_self 5)) hs)⟩

end Ac
end Cradle.Caching
