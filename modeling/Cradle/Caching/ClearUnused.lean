import Cradle.Caching.Eviction

/-!
# Clearing the unused entries

Clearing is the eviction loop with a desired size of zero.  The loop goes by the size of what is
not locked, and a record without a value, or whose value is empty or locked, adds nothing to it.
The loop stops before the end of the list where nothing that it counts is left.
-/

namespace Cradle.Caching

variable {K D V : Type*} [DecidableEq K] [DecidableEq D]

namespace ImmutableCache

/-- `c'` has of `c` the records in use and the values they point to. -/
structure Cleared (c c' : ImmutableCache K D V) : Prop where
  evictionList : c'.evictionList = []
  records : ∀ r, r ∈ c'.records ↔ r ∈ c.records ∧ 0 < r.refCount
  cas_iff : ∀ d, c'.cas.map.Has d ↔ ∃ r ∈ c.records, 0 < r.refCount ∧ r.casRecord = some d
  cas : ∀ e' ∈ c'.cas.map, ∃ e ∈ c.cas.map, e' = { e with refCount := e'.refCount }

/-- Up to the last unused record there is a value that the loop counts: it is neither empty nor
locked, and either a record in use or the last unused one points to it. -/
def CountsToLast (c : ImmutableCache K D V) : Prop :=
  ∃ e ∈ c.cas.map, 0 < e.deepSize ∧ e.lockCount = 0 ∧
    ∃ r ∈ c.records, r.casRecord = some e.digest ∧
      (0 < r.refCount ∨ c.evictionList.getLast? = some r.key)

variable {c c' : ImmutableCache K D V} {p : List K}

omit [DecidableEq K] in
/-- What the loop counts. -/
theorem Consistent.totalUnlockedSize_pos_iff (h : c.Consistent) :
    0 < c.cas.totalUnlockedSize ↔ ∃ e ∈ c.cas.map, 0 < e.deepSize ∧ e.lockCount = 0 := by
  have hlock : ∀ e ∈ c.cas.map, 0 ≤ e.lockCount := by
    intro e he
    rw [h.casLock e he]
    exact Int.natCast_nonneg _
  have hle : ∀ e ∈ c.cas.map.rows, e.lockedSize ≤ e.deepSize := by
    intro e _
    simp only [CasRecord.lockedSize]
    split <;> omega
  have hlt (e : CasRecord D V) (he : e ∈ c.cas.map) :
      e.lockedSize < e.deepSize ↔ 0 < e.deepSize ∧ e.lockCount = 0 := by
    have hpos := hlock e he
    simp only [CasRecord.lockedSize]
    split <;> omega
  rw [CasCache.totalUnlockedSize, Int.sub_pos, h.totalSize_eq, h.totalLockedSize_eq,
    ← sum_lockedSize]
  constructor
  · intro hsum
    obtain ⟨e, he, hless⟩ := List.exists_lt_of_sum_lt _ _ hsum
    exact ⟨e, he, (hlt e he).mp hless⟩
  · rintro ⟨e, he, hcounts⟩
    exact List.sum_lt_sum _ _ hle ⟨e, he, (hlt e he).mpr hcounts⟩

omit [DecidableEq K] in
/-- What the loop counts after it has evicted the keys `p`. -/
theorem Without.totalUnlockedSize_pos_iff (h : c.Without p c') :
    0 < c'.cas.totalUnlockedSize ↔ ∃ e ∈ c.cas.map, 0 < e.deepSize ∧ e.lockCount = 0 ∧
      ∃ r ∈ c.records, r.casRecord = some e.digest ∧ r.key ∉ p := by
  rw [h.consistent.totalUnlockedSize_pos_iff]
  constructor
  · rintro ⟨e', he', hsize, hlock⟩
    obtain ⟨r, hr, hd⟩ := (h.cas_iff e'.digest).mp ⟨e', he', rfl⟩
    obtain ⟨hr, hkey⟩ := (h.records r).mp hr
    obtain ⟨e, he, heq⟩ := h.cas e' he'
    rw [heq] at hsize hlock hd
    exact ⟨e, he, hsize, hlock, r, hr, hd, hkey⟩
  · rintro ⟨e, he, hsize, hlock, r, hr, hd, hkey⟩
    obtain ⟨e', he', hdigest⟩ := (h.cas_iff e.digest).mpr ⟨r, (h.records r).mpr ⟨hr, hkey⟩, hd⟩
    obtain ⟨e₀, he₀, heq⟩ := h.cas e' he'
    have hsame : e₀ = e := by
      apply Table.eq_of_key_eq he₀ he
      rw [← hdigest, heq]
    subst hsame
    refine ⟨e', he', ?_⟩
    rw [heq]
    exact ⟨hsize, hlock⟩

end ImmutableCache

open ImmutableCache (Cleared CountsToLast)

variable {refs lks : K → ℕ} {c : ImmutableCache K D V}

/-- The loop comes to the end of the list exactly if it still counts something when only the last
key is left. -/
theorem Inv.evictionList_clearUnusedEntries_iff (h : Inv refs lks c)
    (hne : c.evictionList ≠ []) :
    c.clearUnusedEntries.evictionList = [] ↔
      0 < (c.evictAll c.evictionList.dropLast).cas.totalUnlockedSize := by
  obtain ⟨evicted, hevicts⟩ := h.evicts 0
  have hlist := hevicts.without.evictionList
  have hlast := h.without_evictAll c.evictionList.dropLast_prefix
  rw [ImmutableCache.clearUnusedEntries]
  constructor
  · intro hnil
    by_contra hpos
    have henough : (c.evictAll c.evictionList.dropLast).Enough 0 := .inr (by omega)
    have hlength := (hevicts.shortest _ c.evictionList.dropLast_prefix henough).length_le
    rw [hnil, List.append_nil] at hlist
    rw [← hlist, List.length_dropLast] at hlength
    have hpos := List.length_pos_iff.mpr hne
    omega
  · intro hpos
    by_contra hrest
    obtain ⟨e, he, hsize, hlock, r, hr, hd, hkey⟩ := hlast.totalUnlockedSize_pos_iff.mp hpos
    -- What was evicted is a part of what comes before the last key.
    rw [hlist, List.dropLast_append_of_ne_nil hrest] at hkey
    have hcounts := hevicts.without.totalUnlockedSize_pos_iff.mpr
      ⟨e, he, hsize, hlock, r, hr, hd, fun hmem => hkey (List.mem_append_left _ hmem)⟩
    rcases hevicts.enough with hnil | hle
    · exact hrest hnil
    · omega

omit [DecidableEq K] in
/-- Only the last key and those of the records in use do not come before the last key. -/
theorem ImmutableCache.Consistent.not_mem_dropLast_iff (h : c.Consistent)
    (hne : c.evictionList ≠ []) {r : CacheRecord K D} (hr : r ∈ c.records) :
    r.key ∉ c.evictionList.dropLast ↔ 0 < r.refCount ∨ c.evictionList.getLast? = some r.key := by
  have hcount := h.lock_le_ref r hr
  have hmem := h.evicted_iff r hr
  have honce := h.evicted_once
  rw [← List.dropLast_append_getLast hne] at honce hmem
  obtain ⟨-, -, hdisjoint⟩ := List.nodup_append.mp honce
  rw [List.mem_append, List.mem_singleton] at hmem
  rw [List.getLast?_eq_some_getLast hne, Option.some.injEq]
  constructor
  · intro hnot
    by_cases h0 : r.refCount = 0
    · exact .inr ((hmem.mpr h0).resolve_left hnot).symm
    · exact .inl (by omega)
  · rintro (hpos | hlast) hbefore
    · have h0 := hmem.mp (.inl hbefore)
      omega
    · exact hdisjoint _ hbefore _ (List.mem_singleton_self _) hlast.symm

/-- Where the list is empty afterwards, just what is in use is left. -/
theorem Inv.cleared_iff (h : Inv refs lks c) :
    Cleared c c.clearUnusedEntries ↔ c.evictionList = [] ∨ CountsToLast c := by
  have hcons := h.consistent
  obtain ⟨evicted, hevicts⟩ := h.evicts 0
  have hwithout := hevicts.without
  rw [← ImmutableCache.clearUnusedEntries] at hwithout
  have hempty : Cleared c c.clearUnusedEntries ↔ c.clearUnusedEntries.evictionList = [] := by
    refine ⟨Cleared.evictionList, fun hnil => ?_⟩
    have hlist := hwithout.evictionList
    rw [hnil, List.append_nil] at hlist
    have hrecords (r) : r ∈ c.clearUnusedEntries.records ↔ r ∈ c.records ∧ 0 < r.refCount := by
      rw [hwithout.records, ← hlist]
      refine and_congr_right fun hr => ?_
      have hcount := hcons.lock_le_ref r hr
      rw [hcons.evicted_iff r hr]
      omega
    refine ⟨hnil, hrecords, fun d => ?_, hwithout.cas⟩
    rw [hwithout.cas_iff]
    simp only [hrecords, and_assoc]
  rw [hempty]
  by_cases hne : c.evictionList = []
  · refine iff_of_true ?_ (.inl hne)
    have hlist := hwithout.evictionList
    rw [hne] at hlist
    exact (List.append_eq_nil_iff.mp hlist.symm).2
  · have hlast := h.without_evictAll c.evictionList.dropLast_prefix
    rw [h.evictionList_clearUnusedEntries_iff hne, hlast.totalUnlockedSize_pos_iff,
      or_iff_right hne, CountsToLast]
    refine exists_congr fun e => and_congr_right fun _ => and_congr_right fun _ =>
      and_congr_right fun _ => exists_congr fun r => and_congr_right fun hr =>
        and_congr_right fun _ => hcons.not_mem_dropLast_iff hne hr

namespace System

variable {digestOf : V → D} {deepSizeof : V → ℕ} {s s' : System K D V}

/-- In no reachable state does more than this decide whether clearing leaves just what is in
use. -/
theorem cleared_iff_of_reachable
    (h : Transition.Reachable (step digestOf deepSizeof) (fun _ _ => True) (Set.range init) s)
    (hs : step digestOf deepSizeof s .clearUnused = some s') :
    Cleared s.cache s'.cache ↔ s.cache.evictionList = [] ∨ CountsToLast s.cache := by
  obtain rfl := Option.some.inj hs
  exact (ok_of_reachable h).cleared_iff

/-- A record in use keeps its value of size 5; another record is unused. -/
def oneUnusedRun : List (Action ℕ ℕ) :=
  [.acquire 0, .recordValue 0 5, .acquire 1, .recordValue 1 7, .release 1]

theorem cleared_iff_oneUnusedRun : ∃ s s' : System ℕ ℕ ℕ,
    Transition.run (step id id) (init 100) oneUnusedRun = some s ∧
      step id id s .clearUnused = some s' ∧ s.cache.evictionList = [1] ∧
      (Cleared s.cache s'.cache ↔ s.cache.evictionList = [] ∨ CountsToLast s.cache) := by
  have hrun : (Transition.run (step id id) (init 100 : System ℕ ℕ ℕ) oneUnusedRun).bind (fun s =>
      (step id id s .clearUnused).map fun _ => s.cache.evictionList) = some [1] := by decide
  obtain ⟨s, hs, hlast⟩ := Option.bind_eq_some_iff.mp hrun
  obtain ⟨s', hs', hlist⟩ := Option.map_eq_some_iff.mp hlast
  have hreach := Transition.Reachable.run (.start (Set.mem_range_self 100)) hs
  exact ⟨s, s', hs, hs', hlist, cleared_iff_of_reachable hreach hs'⟩

/-- A record whose loading has failed has no size. -/
theorem not_cleared_failedRun : ∃ s s' : System ℕ ℕ ℕ,
    Transition.run (step id id) (init 100) [.acquire 0, .recordFailure 0, .release 0] = some s ∧
      step id id s .clearUnused = some s' ∧ ¬ Cleared s.cache s'.cache := by
  have hrun : (Transition.run (step id id) (init 100 : System ℕ ℕ ℕ)
      [.acquire 0, .recordFailure 0, .release 0]).bind (fun s =>
        (step id id s .clearUnused).map fun s' => s'.cache.evictionList) = some [0] := by decide
  obtain ⟨s, hs, hlast⟩ := Option.bind_eq_some_iff.mp hrun
  obtain ⟨s', hs', hlist⟩ := Option.map_eq_some_iff.mp hlast
  refine ⟨s, s', hs, hs', fun hcleared => ?_⟩
  rw [hcleared.evictionList] at hlist
  cases hlist

end System
end Cradle.Caching
