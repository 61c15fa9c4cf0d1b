import Cradle.Caching.Fidelity
import Mathlib.Data.List.Infix

/-!
# Eviction is least recently used first, and no more than needed

The eviction list of a reachable cache holds the records without references, ordered
by the time at which each lost its last one.  The eviction loop removes a prefix of
that list.  `Without c p c'` says what it means to remove the keys `p` and nothing
else; `Evicts c desiredSize evicted c'` says that `evicted` is the shortest prefix
that is enough.

The list knows no times.  `Clocked` adds them to a run: a clock, and for each key the
time of the last release that left it without references.
-/

namespace Cradle.Caching

variable {K D V : Type*} [DecidableEq K] [DecidableEq D]

/-! ## Removing a prefix -/

namespace ImmutableCache

/-- Evict the keys in turn, each from the front of the eviction list. -/
def evictAll (c : ImmutableCache K D V) (ks : List K) : ImmutableCache K D V :=
  ks.foldl evictFront c

@[simp] theorem evictAll_nil (c : ImmutableCache K D V) : c.evictAll [] = c := rfl

@[simp] theorem evictAll_cons (c : ImmutableCache K D V) (k : K) (ks : List K) :
    c.evictAll (k :: ks) = (c.evictFront k).evictAll ks := rfl

/-- Nothing more has to be evicted to get down to the size. -/
def Enough (c : ImmutableCache K D V) (desiredSize : ℕ) : Prop :=
  c.evictionList = [] ∨ c.cas.totalUnlockedSize ≤ desiredSize

/-- `c'` is the cache `c` without the records of the keys `p`, the front of its
eviction list.  A record that stays is unchanged, and the CAS record of a digest stays
exactly as long as one of them points to it. -/
structure Without (c : ImmutableCache K D V) (p : List K) (c' : ImmutableCache K D V) : Prop where
  evictionList : c.evictionList = p ++ c'.evictionList
  records : ∀ r, r ∈ c'.records ↔ r ∈ c.records ∧ r.key ∉ p
  cas_iff : ∀ d, c'.cas.map.Has d ↔ ∃ r ∈ c'.records, r.casRecord = some d
  cas : ∀ e' ∈ c'.cas.map, ∃ e ∈ c.cas.map, e' = { e with refCount := e'.refCount }
  consistent : c'.Consistent

/-- Getting from `c` down to the size removes `evicted`, the shortest prefix of the
eviction list that is enough, and leaves `c'`. -/
structure Evicts (c : ImmutableCache K D V) (desiredSize : ℕ) (evicted : List K)
    (c' : ImmutableCache K D V) : Prop where
  without : c.Without evicted c'
  enough : c'.Enough desiredSize
  shortest : ∀ p, p <+: c.evictionList → (c.evictAll p).Enough desiredSize → evicted <+: p

namespace Without

variable {c c' c'' : ImmutableCache K D V} {p q : List K} {k : K}

omit [DecidableEq K] in
theorem trans (h : c.Without p c') (h' : c'.Without q c'') : c.Without (p ++ q) c'' where
  evictionList := by rw [h.evictionList, h'.evictionList, List.append_assoc]
  records r := by
    rw [h'.records, h.records, List.mem_append]
    tauto
  cas_iff := h'.cas_iff
  cas e'' he'' := by
    obtain ⟨e', he', hee'⟩ := h'.cas e'' he''
    obtain ⟨e, he, hee⟩ := h.cas e' he'
    refine ⟨e, he, ?_⟩
    rw [hee] at hee'
    exact hee'
  consistent := h'.consistent

theorem find?_of_not_mem (h : c.Without p c') (hk : k ∉ p) :
    c'.records.find? k = c.records.find? k := by
  ext r
  rw [Table.find?_eq_some, Table.find?_eq_some, h.records]
  constructor
  · rintro ⟨⟨hr, -⟩, hrk⟩
    exact ⟨hr, hrk⟩
  · rintro ⟨hr, hrk⟩
    exact ⟨⟨hr, by rwa [hrk]⟩, hrk⟩

/-- A key that stays is seen with the same value. -/
theorem getValue (h : c.Without p c') (hk : k ∉ p) : c'.getValue k = c.getValue k := by
  rw [ImmutableCache.getValue, ImmutableCache.getValue, h.find?_of_not_mem hk]
  cases hr : c.records.find? k with
  | none => rfl
  | some r =>
      cases hd : r.casRecord with
      | none => simp [hd]
      | some d =>
          have hmem : r ∈ c'.records := by
            obtain ⟨hr, hrk⟩ := Table.find?_eq_some.mp hr
            exact (h.records r).mpr ⟨hr, by rwa [hrk]⟩
          -- the record still points to its digest, so the CAS record is still there
          obtain ⟨e', he', hd'⟩ := (h.cas_iff d).mpr ⟨r, hmem, hd⟩
          obtain ⟨e, he, hee⟩ := h.cas e' he'
          have hfind' : c'.cas.map.find? d = some e' := Table.find?_eq_some.mpr ⟨he', hd'⟩
          have hfind : c.cas.map.find? d = some e := by
            refine Table.find?_eq_some.mpr ⟨he, ?_⟩
            rw [← hd', hee]
          have hvalue : e'.value = e.value := by rw [hee]
          simp [hd, hfind, hfind', hvalue]

end Without
end ImmutableCache

section Inv
open ImmutableCache (Without Evicts Enough)

variable {refs lks : K → ℕ} {c : ImmutableCache K D V} {k : K} {desiredSize : ℕ}

omit [DecidableEq K] in
/-- Dropping a reference changes no CAS record but for its counter. -/
theorem mem_dropRef {cas : CasCache D V} {d : D} {e' : CasRecord D V}
    (he' : e' ∈ (cas.dropRef d).map) : ∃ e ∈ cas.map, e' = { e with refCount := e'.refCount } := by
  have hmodify : e' ∈ cas.map.modify d CasRecord.delRef CasRecord.delRef_digest := by
    rw [CasCache.dropRef] at he'
    dsimp only at he'
    split at he'
    · split at he'
      · exact (Table.mem_erase.mp he').1
      · exact he'
    · exact he'
  obtain ⟨e, he, heq⟩ := (Table.mem_modify CasRecord.delRef_digest).mp hmodify
  refine ⟨e, he, ?_⟩
  split at heq
  · rw [heq, CasRecord.delRef]
  · rw [heq]

omit [DecidableEq K] in
/-- In a consistent cache the CAS holds what the records point to. -/
theorem ImmutableCache.Consistent.cas_has_iff (h : c.Consistent) (d : D) :
    c.cas.map.Has d ↔ ∃ r ∈ c.records, r.casRecord = some d := by
  constructor
  · rintro ⟨e, he, rfl⟩
    obtain ⟨hpos, hcount⟩ := h.casRef e he
    have hposCount : 0 < c.records.rows.countP (·.casRecord = some e.digest) := by omega
    obtain ⟨r, hr, hd⟩ := List.countP_pos_iff.mp hposCount
    exact ⟨r, hr, by simpa using hd⟩
  · rintro ⟨r, hr, hd⟩
    exact h.cas_has r hr d hd

theorem Inv.without_nil (h : Inv refs lks c) : c.Without [] c where
  evictionList := rfl
  records r := by simp
  cas_iff := h.consistent.cas_has_iff
  cas e he := ⟨e, he, rfl⟩
  consistent := h.consistent

theorem Inv.without_evictFront (h : Inv refs lks c) {ks : List K}
    (hl : c.evictionList = k :: ks) : c.Without [k] (c.evictFront k) where
  evictionList := by simp [ImmutableCache.evictFront, hl]
  records r := by simp [ImmutableCache.evictFront]
  cas_iff := (h.evictFront hl).consistent.cas_has_iff
  cas e' he' := by
    simp only [ImmutableCache.evictFront] at he'
    split at he'
    · exact mem_dropRef he'
    · exact ⟨e', he', rfl⟩
  consistent := (h.evictFront hl).consistent

/-- Evicting a prefix of the eviction list removes its records and nothing else. -/
theorem Inv.without_evictAll (h : Inv refs lks c) {p : List K} (hp : p <+: c.evictionList) :
    c.Without p (c.evictAll p) := by
  induction p generalizing c with
  | nil => exact h.without_nil
  | cons k p ih =>
      obtain ⟨ks, hl⟩ := hp
      have hl : c.evictionList = k :: (p ++ ks) := hl.symm
      have hprefix : p <+: (c.evictFront k).evictionList := by
        simp [ImmutableCache.evictFront, hl]
      exact (h.without_evictFront hl).trans (ih (h.evictFront hl) hprefix)

/-! ## The eviction loop -/

/-- The loop stops at the first prefix that is enough. -/
theorem reduceLoop_eq_evictAll (desiredSize : ℕ) :
    ∀ {c : ImmutableCache K D V} {ks : List K}, c.evictionList = ks →
      ∃ evicted, evicted <+: ks
        ∧ ImmutableCache.reduceLoop desiredSize ks c = c.evictAll evicted
        ∧ (c.evictAll evicted).Enough desiredSize
        ∧ ∀ p, p <+: ks → (c.evictAll p).Enough desiredSize → evicted <+: p := by
  intro c ks
  induction ks generalizing c with
  | nil =>
      intro hl
      exact ⟨[], List.nil_prefix, rfl, .inl hl, fun p _ _ => List.nil_prefix⟩
  | cons k ks ih =>
      intro hl
      rw [ImmutableCache.reduceLoop]
      by_cases hsize : (desiredSize : ℤ) < c.cas.totalUnlockedSize
      · have htail : (c.evictFront k).evictionList = ks := by
          simp [ImmutableCache.evictFront, hl]
        obtain ⟨evicted, hprefix, hloop, henough, hshortest⟩ := ih htail
        rw [if_pos hsize]
        refine ⟨k :: evicted, ?_, hloop, henough, fun p hp hpe => ?_⟩
        · exact (List.prefix_cons_inj k).mpr hprefix
        · cases p with
          | nil =>
              -- at the start neither the list is empty nor the size reached
              rcases hpe with hnil | hle
              · rw [ImmutableCache.evictAll_nil, hl] at hnil
                cases hnil
              · rw [ImmutableCache.evictAll_nil] at hle
                omega
          | cons k' p =>
              obtain ⟨rfl, hp'⟩ := List.cons_prefix_cons.mp hp
              exact (List.prefix_cons_inj k').mpr (hshortest p hp' hpe)
      · rw [if_neg hsize]
        refine ⟨[], List.nil_prefix, rfl, .inr ?_, fun p _ _ => List.nil_prefix⟩
        rw [ImmutableCache.evictAll_nil]
        omega

theorem Inv.evicts (h : Inv refs lks c) (desiredSize : ℕ) :
    ∃ evicted, c.Evicts desiredSize evicted (c.reduceMemoryCacheSize desiredSize) := by
  obtain ⟨evicted, hprefix, hloop, henough, hshortest⟩ :=
    reduceLoop_eq_evictAll desiredSize (c := c) rfl
  rw [ImmutableCache.reduceMemoryCacheSize, hloop]
  exact ⟨evicted, h.without_evictAll hprefix, henough, hshortest⟩

end Inv

/-! ## The eviction list after each operation -/

namespace ImmutableCache

variable (c : ImmutableCache K D V) (k : K)

theorem evictionList_reduceLoop (desiredSize : ℕ) :
    ∀ {c : ImmutableCache K D V} {ks : List K}, c.evictionList = ks →
      (reduceLoop desiredSize ks c).evictionList.Sublist ks := by
  intro c ks
  induction ks generalizing c with
  | nil =>
      intro hl
      rw [reduceLoop, hl]
  | cons k ks ih =>
      intro hl
      rw [reduceLoop]
      split
      · exact (ih (by simp [evictFront, hl])).cons k
      · rw [hl]

theorem evictionList_reduceMemoryCacheSize (desiredSize : ℕ) :
    (c.reduceMemoryCacheSize desiredSize).evictionList.Sublist c.evictionList :=
  evictionList_reduceLoop desiredSize rfl

omit [DecidableEq D] in
@[simp] theorem evictionList_dropLastRef :
    (c.dropLastRef k).evictionList = c.evictionList ++ [k] := rfl

omit [DecidableEq D] in
@[simp] theorem evictionList_retryFailed : (c.retryFailed k).evictionList = c.evictionList := rfl

omit [DecidableEq D] in
@[simp] theorem evictionList_findOrCreateRecord :
    (c.findOrCreateRecord k).evictionList = c.evictionList := by
  rw [findOrCreateRecord]
  split <;> rfl

omit [DecidableEq D] in
theorem evictionList_addRef : (c.addRefToCacheRecord k).evictionList.Sublist c.evictionList := by
  rw [addRefToCacheRecord]
  split
  · split
    · exact List.erase_sublist
    · exact List.Sublist.refl _
  · exact List.Sublist.refl _

@[simp] theorem evictionList_addLock :
    (c.addLockToCacheRecord k).evictionList = c.evictionList := by
  rw [addLockToCacheRecord]
  split
  · split
    · split <;> rfl
    · rfl
  · rfl

@[simp] theorem evictionList_delLock :
    (c.delLockFromCacheRecord k).evictionList = c.evictionList := by
  rw [delLockFromCacheRecord]
  split
  · split
    · split <;> rfl
    · rfl
  · rfl

@[simp] theorem unusedSizeLimit_delLock :
    (c.delLockFromCacheRecord k).unusedSizeLimit = c.unusedSizeLimit := by
  rw [delLockFromCacheRecord]
  split
  · split
    · split <;> rfl
    · rfl
  · rfl

omit [DecidableEq D] in
theorem evictionList_acquire : (c.acquireCacheRecord k).evictionList.Sublist c.evictionList := by
  refine (evictionList_addRef _ k).trans ?_
  rw [evictionList_retryFailed, evictionList_findOrCreateRecord]

end ImmutableCache

/-! ## Steps -/

namespace System

variable {digestOf : V → D} {deepSizeof : V → ℕ} {s s' : System K D V} {a : Action K V}

/-- The key that the action leaves without references. -/
def lastReleased (s : System K D V) : Action K V → Option K
  | .release k => if s.refs k = 1 then some k else none
  | .unlock k => if s.refs k = 1 then some k else none
  | _ => none

/-- The call of `reduce_memory_cache_size_impl` in the action, if it makes one: the
cache at that moment and the desired size. -/
def reduceCall (s : System K D V) : Action K V → Option (ImmutableCache K D V × ℕ)
  | .release k =>
      if s.refs k = 1 then some (s.cache.dropLastRef k, s.cache.unusedSizeLimit) else none
  | .unlock k =>
      if s.refs k = 1 then
        some ((s.cache.delLockFromCacheRecord k).dropLastRef k, s.cache.unusedSizeLimit)
      else none
  | .reduce n => some (s.cache, n)
  | .clearUnused => some (s.cache, 0)
  | _ => none

omit [DecidableEq D] in
theorem refs_of_lastReleased {k : K} (h : s.lastReleased a = some k) : s.refs k = 1 := by
  cases a with
  | release k' =>
      obtain ⟨h1, rfl⟩ : s.refs k' = 1 ∧ k' = k := by simpa [lastReleased] using h
      exact h1
  | unlock k' =>
      obtain ⟨h1, rfl⟩ : s.refs k' = 1 ∧ k' = k := by simpa [lastReleased] using h
      exact h1
  | acquire | lock | recordValue | recordFailure | reduce | clearUnused => cases h

/-- A key with a reference is not on the eviction list. -/
theorem Ok.not_mem_evictionList (h : s.Ok) {k : K} (hk : 0 < s.refs k) :
    k ∉ s.cache.evictionList := by
  have hok := h.records k
  obtain ⟨r, hr⟩ := h.find hk
  rw [hr] at hok
  obtain ⟨-, -, -, he, -, -⟩ := hok
  rw [if_neg (by omega)] at he
  exact List.count_eq_zero.mp he

/-- What `del_ref_from_cache_record` leaves of the eviction list. -/
theorem evictionList_delRef {refs lks : K → ℕ} {c : ImmutableCache K D V} {k : K}
    (h : Inv refs lks c) (hk : 0 < refs k) :
    (c.delRefFromCacheRecord k).evictionList.Sublist
      (c.evictionList ++ (if refs k = 1 then some k else none).toList) := by
  rw [h.delRef_eq hk]
  by_cases h1 : refs k = 1
  · rw [if_pos h1, if_pos h1]
    exact ImmutableCache.evictionList_reduceMemoryCacheSize _ _
  · rw [if_neg h1, if_neg h1]
    simp [ImmutableCache.update]

/-- The invariant of a cache between the two halves of the destructor of a lock. -/
theorem Ok.delLock (h : s.Ok) {k : K} (hk : k ∈ s.locks) :
    0 < s.refs k ∧ Inv s.refs (fun k' => s.lks k' - if k' = k then 1 else 0)
      (s.cache.delLockFromCacheRecord k) := by
  have hpos : 0 < s.lks k := List.count_pos_iff.mpr hk
  constructor
  · simp only [refs]
    simp only [lks] at hpos
    omega
  · exact Inv.delLock h hpos

/-- Only the last release of a key adds to the eviction list, at the end. -/
theorem evictionList_step (h : s.Ok) (hs : step digestOf deepSizeof s a = some s') :
    s'.cache.evictionList.Sublist (s.cache.evictionList ++ (s.lastReleased a).toList) := by
  cases a with
  | acquire k =>
      obtain rfl := Option.some.inj hs
      simpa [lastReleased] using s.cache.evictionList_acquire k
  | release k =>
      simp only [step, Option.ite_none_right_eq_some, Option.some.injEq] at hs
      obtain ⟨hk, rfl⟩ := hs
      exact evictionList_delRef h (Nat.zero_lt_of_lt (lks_lt_refs hk))
  | lock k =>
      simp only [step, Option.ite_none_right_eq_some, Option.some.injEq] at hs
      obtain ⟨-, rfl⟩ := hs
      simpa [lastReleased] using s.cache.evictionList_addRef k
  | unlock k =>
      simp only [step, Option.ite_none_right_eq_some, Option.some.injEq] at hs
      obtain ⟨hk, rfl⟩ := hs
      obtain ⟨hpos, hinv⟩ := h.delLock hk
      simpa only [lastReleased, ImmutableCache.evictionList_delLock]
        using evictionList_delRef hinv hpos
  | recordValue k v =>
      simp only [step, Option.ite_none_right_eq_some, Option.some.injEq] at hs
      obtain ⟨-, rfl⟩ := hs
      simp [lastReleased, ImmutableCache.recordValueUntyped]
  | recordFailure k =>
      simp only [step, Option.ite_none_right_eq_some, Option.some.injEq] at hs
      obtain ⟨-, rfl⟩ := hs
      simp [lastReleased, ImmutableCache.recordFailure, ImmutableCache.update]
  | reduce n =>
      obtain rfl := Option.some.inj hs
      simpa [lastReleased] using s.cache.evictionList_reduceMemoryCacheSize n
  | clearUnused =>
      obtain rfl := Option.some.inj hs
      simpa [lastReleased, ImmutableCache.clearUnusedEntries]
        using s.cache.evictionList_reduceMemoryCacheSize 0

/-- An action that calls `reduce_memory_cache_size_impl` does so in a cache that keeps
the invariant, whose eviction list has got the released key, and is done after it. -/
theorem reduceCall_spec (h : s.Ok) (hs : step digestOf deepSizeof s a = some s')
    {c : ImmutableCache K D V} {desiredSize : ℕ}
    (hcall : s.reduceCall a = some (c, desiredSize)) :
    (∃ refs lks, Inv refs lks c) ∧ s'.cache = c.reduceMemoryCacheSize desiredSize
      ∧ c.evictionList = s.cache.evictionList ++ (s.lastReleased a).toList := by
  cases a with
  | release k =>
      simp only [reduceCall, Option.ite_none_right_eq_some, Option.some.injEq,
        Prod.mk.injEq] at hcall
      obtain ⟨h1, rfl, rfl⟩ := hcall
      simp only [step, Option.ite_none_right_eq_some, Option.some.injEq] at hs
      obtain ⟨hk, rfl⟩ := hs
      have hlt := lks_lt_refs hk
      refine ⟨⟨_, _, Inv.dropLastRef h h1 hlt⟩, ?_, ?_⟩
      · simp [Inv.delRef_eq h (k := k) (by omega), h1]
      · simp [lastReleased, h1]
  | unlock k =>
      simp only [reduceCall, Option.ite_none_right_eq_some, Option.some.injEq,
        Prod.mk.injEq] at hcall
      obtain ⟨h1, rfl, rfl⟩ := hcall
      simp only [step, Option.ite_none_right_eq_some, Option.some.injEq] at hs
      obtain ⟨hk, rfl⟩ := hs
      obtain ⟨hpos, hinv⟩ := h.delLock hk
      have hle : s.lks k ≤ s.refs k := by
        simp only [refs, lks]
        omega
      refine ⟨⟨_, _, hinv.dropLastRef h1 ?_⟩, ?_, ?_⟩
      · have hlocked : 0 < s.lks k := List.count_pos_iff.mpr hk
        simp only [if_true]
        omega
      · simp [hinv.delRef_eq hpos, h1]
      · simp [lastReleased, h1]
  | reduce n =>
      obtain ⟨rfl, rfl⟩ : s.cache = c ∧ n = desiredSize := by simpa [reduceCall] using hcall
      obtain rfl := Option.some.inj hs
      exact ⟨⟨_, _, h⟩, rfl, by simp [lastReleased]⟩
  | clearUnused =>
      obtain ⟨rfl, rfl⟩ : s.cache = c ∧ 0 = desiredSize := by simpa [reduceCall] using hcall
      obtain rfl := Option.some.inj hs
      exact ⟨⟨_, _, h⟩, rfl, by simp [lastReleased]⟩
  | acquire | lock | recordValue | recordFailure => cases hcall

end System

/-! ## The times of the last releases -/

/-- A cache with its clients and a clock.  `lastRelease` has for each key the time of
the last release that left it without references. -/
structure Clocked (K D V : Type*) where
  system : System K D V
  now : ℕ := 0
  lastRelease : K → ℕ := fun _ => 0

namespace Clocked

variable {digestOf : V → D} {deepSizeof : V → ℕ} {s s' : Clocked K D V} {a : Action K V}

/-- An action, which takes a tick of the clock. -/
def step (digestOf : V → D) (deepSizeof : V → ℕ) (s : Clocked K D V) (a : Action K V) :
    Option (Clocked K D V) :=
  (s.system.step digestOf deepSizeof a).map fun s' =>
    { system := s'
      now := s.now + 1
      lastRelease := match s.system.lastReleased a with
        | some k => Function.update s.lastRelease k s.now
        | none => s.lastRelease }

def init (unusedSizeLimit : ℕ) : Clocked K D V := { system := .init unusedSizeLimit }

/-- The system keeps its invariant, and the keys on the eviction list are ordered by
the times of their last releases. -/
structure Ok (s : Clocked K D V) : Prop where
  system : s.system.Ok
  ordered : s.system.cache.evictionList.Pairwise (s.lastRelease · < s.lastRelease ·)
  past : ∀ k ∈ s.system.cache.evictionList, s.lastRelease k < s.now

/-- After an action the keys that were on the eviction list and the one that the
action released are in the order of their times. -/
theorem Ok.ordered_append (h : s.Ok) (hs : step digestOf deepSizeof s a = some s') :
    (s.system.cache.evictionList ++ (s.system.lastReleased a).toList).Pairwise
        (s'.lastRelease · < s'.lastRelease ·)
      ∧ ∀ k ∈ s.system.cache.evictionList ++ (s.system.lastReleased a).toList,
          s'.lastRelease k < s'.now := by
  obtain ⟨sys, -, rfl⟩ := Option.map_eq_some_iff.mp hs
  dsimp only
  cases hk : s.system.lastReleased a with
  | none =>
      simp only [Option.toList_none, List.append_nil]
      exact ⟨h.ordered, fun k hk => Nat.lt_succ_of_lt (h.past k hk)⟩
  | some k =>
      have h1 : s.system.refs k = 1 := System.refs_of_lastReleased hk
      have hnot : k ∉ s.system.cache.evictionList := h.system.not_mem_evictionList (by omega)
      have hold : ∀ k' ∈ s.system.cache.evictionList,
          Function.update s.lastRelease k s.now k' = s.lastRelease k' := fun k' hk' => by
        rw [Function.update_of_ne (ne_of_mem_of_not_mem hk' hnot)]
      have hlt : ∀ k' ∈ s.system.cache.evictionList,
          Function.update s.lastRelease k s.now k' < s.now := fun k' hk' => by
        rw [hold k' hk']
        exact h.past k' hk'
      simp only [Option.toList_some]
      constructor
      · rw [List.pairwise_append]
        refine ⟨?_, List.pairwise_singleton _ _, ?_⟩
        · refine h.ordered.imp_of_mem fun {x y} hx hy hxy => ?_
          rwa [hold x hx, hold y hy]
        · intro k' hk' k'' hk''
          obtain rfl := List.mem_singleton.mp hk''
          rw [Function.update_self]
          exact hlt k' hk'
      · intro k' hk'
        rcases List.mem_append.mp hk' with hk' | hk'
        · exact Nat.lt_succ_of_lt (hlt k' hk')
        · obtain rfl := List.mem_singleton.mp hk'
          rw [Function.update_self]
          exact Nat.lt_succ_self _

theorem ok_step (h : s.Ok) (hs : step digestOf deepSizeof s a = some s') : s'.Ok := by
  obtain ⟨hordered, hpast⟩ := h.ordered_append hs
  obtain ⟨sys, hsys, rfl⟩ := Option.map_eq_some_iff.mp hs
  have hsub := System.evictionList_step h.system hsys
  exact ⟨System.ok_step h.system hsys, hordered.sublist hsub, fun k hk => hpast k (hsub.subset hk)⟩

theorem ok_of_reachable
    (h : Transition.Reachable (step digestOf deepSizeof) (fun _ _ => True)
      (Set.range init) s) : s.Ok := by
  refine h.invariant ?_ fun s s' a hs _ => ok_step hs
  rintro _ ⟨limit, rfl⟩
  exact ⟨System.ok_init limit, List.Pairwise.nil, fun k hk => absurd hk List.not_mem_nil⟩

/-- Whenever the eviction loop runs, its list holds the records without references by
the time of their last release, and it evicts the shortest prefix that is enough.
What it evicts had neither references nor locks, and what stays keeps its value. -/
theorem evicts_of_reachable
    (h : Transition.Reachable (step digestOf deepSizeof) (fun _ _ => True) (Set.range init) s)
    (hs : step digestOf deepSizeof s a = some s') {c : ImmutableCache K D V} {desiredSize : ℕ}
    (hcall : s.system.reduceCall a = some (c, desiredSize)) :
    (∀ k, k ∈ c.evictionList ↔ ∃ r ∈ c.records, r.key = k ∧ r.refCount = 0)
      ∧ c.evictionList.Pairwise (s'.lastRelease · < s'.lastRelease ·)
      ∧ ∃ evicted, c.Evicts desiredSize evicted s'.system.cache
        ∧ (∀ r ∈ c.records, r.key ∈ evicted → r.refCount = 0 ∧ r.lockCount = 0)
        ∧ ∀ k ∉ evicted, s'.system.cache.getValue k = c.getValue k := by
  have hok := ok_of_reachable h
  obtain ⟨hordered, -⟩ := hok.ordered_append hs
  obtain ⟨sys, hsys, rfl⟩ := Option.map_eq_some_iff.mp hs
  obtain ⟨⟨refs, lks, hinv⟩, hcache, hlist⟩ := System.reduceCall_spec hok.system hsys hcall
  have hcons := hinv.consistent
  refine ⟨fun k => ⟨fun hk => ?_, ?_⟩, hlist ▸ hordered, ?_⟩
  · obtain ⟨r, hr, rfl⟩ := hcons.evicted_has k hk
    exact ⟨r, hr, rfl, (hcons.evicted_iff r hr).mp hk⟩
  · rintro ⟨r, hr, rfl, h0⟩
    exact (hcons.evicted_iff r hr).mpr h0
  · obtain ⟨evicted, hevicts⟩ := hinv.evicts desiredSize
    rw [← hcache] at hevicts
    refine ⟨evicted, hevicts, fun r hr hk => ?_, fun k hk => hevicts.without.getValue hk⟩
    have hmem : r.key ∈ c.evictionList := by
      rw [hevicts.without.evictionList]
      exact List.mem_append_left _ hk
    have h0 : r.refCount = 0 := (hcons.evicted_iff r hr).mp hmem
    have hlock := hcons.lock_le_ref r hr
    exact ⟨h0, by omega⟩

/-- Two records share a value, a third one has its own; the first is used again before
the last of them is released and the loop runs. -/
def lruRun : List (Action ℕ ℕ) :=
  [.acquire 0, .recordValue 0 40, .acquire 1, .recordValue 1 40, .acquire 2, .recordValue 2 7,
    .lock 2, .release 0, .release 1, .acquire 0, .release 0, .release 2]

theorem evicts_lruRun :
    ∃ s s' : Clocked ℕ ℕ ℕ, ∃ c, Transition.run (step id id) (init 45) lruRun = some s
      ∧ step id id s (.unlock 2) = some s' ∧ s.system.reduceCall (.unlock 2) = some (c, 45)
      ∧ s'.system.cache.evictionList = [2] ∧ ∃ evicted, c.Evicts 45 evicted s'.system.cache := by
  have hrun : (Transition.run (step id id) (init 45 : Clocked ℕ ℕ ℕ) lruRun).bind (fun s =>
      (step id id s (.unlock 2)).map fun s' => (s.system.reduceCall (.unlock 2)).map fun call =>
        (call.2, s'.system.cache.evictionList)) = some (some (45, [2])) := by decide
  obtain ⟨s, hs, hlast⟩ := Option.bind_eq_some_iff.mp hrun
  obtain ⟨s', hs', hcall⟩ := Option.map_eq_some_iff.mp hlast
  obtain ⟨⟨c, n⟩, hc, heq⟩ := Option.map_eq_some_iff.mp hcall
  obtain ⟨rfl, hlist⟩ := Prod.mk.inj heq
  have hreach := Transition.Reachable.run (.start (Set.mem_range_self 45)) hs
  obtain ⟨-, -, evicted, hevicts, -⟩ := evicts_of_reachable hreach hs' hc
  exact ⟨s, s', c, hs, hs', hc, hlist, evicted, hevicts⟩

end Clocked
end Cradle.Caching
