import Cradle.Lib.Table
import Mathlib.Data.List.Forall2
import Mathlib.Data.List.Induction

/-!
# The registry of resolvers

`seri_registry` maps the uuid of a request to the resolvers that catalogs registered for
it.  A catalog is loaded and unloaded with its DLL, so several catalogs can hold entries
for one uuid; the newest entry stands at the front of the list and is the one found.  All
operations hold the registry's mutex, so a run is a sequence of calls.

What the lists hold is told from the calls alone: a call of `add` is a *registration* when
its catalog has none for the uuid at that moment (a repeated call adds nothing), and it
lasts until its catalog is unregistered.

Resolvers, `create` functions and function values are pointers that the registry only
hands on; log messages are left out.
-/

namespace Cradle.Registry

abbrev CatalogId := ℕ

/-- `entry_t`.  The entry of a proxy request has neither resolver nor function. -/
structure Entry (R C F : Type*) where
  catId : CatalogId
  resolver : Option R
  create : C
  function : Option F
  deriving DecidableEq

/-- An element of `outer_map_t`: a uuid with its `inner_list_t`. -/
structure Slot (R C F : Type*) where
  uuidStr : String
  innerList : List (Entry R C F)

/-- `seri_registry`. -/
structure SeriRegistry (R C F : Type*) where
  entries : Table (Slot.uuidStr : Slot R C F → String) := ∅

variable {R C F : Type*}

/-- `unregistered_uuid_error`. -/
structure UnregisteredUuidError where
  what : String
  deriving DecidableEq, Repr

/-- `detect_duplicate`. -/
def detectDuplicate (innerList : List (Entry R C F)) (catId : CatalogId) : Bool :=
  innerList.any fun e => e.catId = catId

namespace Slot

def pushFront (e : Entry R C F) (s : Slot R C F) : Slot R C F :=
  { s with innerList := e :: s.innerList }

/-- The loop over the inner list in `unregister_catalog`. -/
def removeCatalog (catId : CatalogId) (s : Slot R C F) : Slot R C F :=
  { s with innerList := s.innerList.filter fun e => e.catId ≠ catId }

theorem uuidStr_pushFront (e : Entry R C F) (s : Slot R C F) :
    (s.pushFront e).uuidStr = s.uuidStr := rfl

theorem uuidStr_removeCatalog (catId : CatalogId) (s : Slot R C F) :
    (s.removeCatalog catId).uuidStr = s.uuidStr := rfl

end Slot

namespace SeriRegistry

variable (r : SeriRegistry R C F)

/-- `add`. -/
def add (uuidStr : String) (e : Entry R C F) : SeriRegistry R C F :=
  let entries := if r.entries.Has uuidStr then r.entries
    else r.entries.insert { uuidStr, innerList := [] }
  match entries.find? uuidStr with
  | some slot =>
      if detectDuplicate slot.innerList e.catId then { entries }
      else { entries := entries.modify uuidStr (Slot.pushFront e) (Slot.uuidStr_pushFront e) }
  | none => { entries }

/-- `unregister_catalog`: the entries of the catalog go, and then the lists that are left
empty. -/
def unregisterCatalog (catId : CatalogId) : SeriRegistry R C F :=
  let swept := r.entries.mapRows (Slot.removeCatalog catId) (Slot.uuidStr_removeCatalog catId)
  { entries := swept.filter fun s => !s.innerList.isEmpty }

/-- `make_uuid_error_message`. -/
def makeUuidErrorMessage (missingUuidStr : String) (verbose : Bool) : String :=
  "seri_registry: no entry found for uuid " ++ missingUuidStr ++
    if verbose then
      ". Registered uuids are:" ++ String.join (r.entries.rows.map fun s => " " ++ s.uuidStr)
    else ""

/-- `find_entry`. -/
def findEntry (uuidStr : String) (verbose : Bool) : Except UnregisteredUuidError (Entry R C F) :=
  match r.entries.find? uuidStr with
  | none => .error ⟨r.makeUuidErrorMessage uuidStr verbose⟩
  | some slot =>
      match slot.innerList with
      | [] => .error ⟨"seri_registry: empty list for uuid " ++ uuidStr⟩
      | e :: _ => .ok e

/-- The list of a uuid; a uuid without a list has no entries. -/
def innerList (uuidStr : String) : List (Entry R C F) :=
  ((r.entries.find? uuidStr).map Slot.innerList).getD []

/-- No list is empty. -/
def NoEmptyList : Prop := ∀ s ∈ r.entries, s.innerList ≠ []

end SeriRegistry

/-! ## Runs -/

inductive Op (R C F : Type*)
  | add (uuidStr : String) (e : Entry R C F)
  | unregisterCatalog (catId : CatalogId)

namespace SeriRegistry

def step (r : SeriRegistry R C F) : Op R C F → SeriRegistry R C F
  | .add uuidStr e => r.add uuidStr e
  | .unregisterCatalog catId => r.unregisterCatalog catId

/-- The registry after a sequence of calls, the oldest first. -/
def run (ops : List (Op R C F)) : SeriRegistry R C F := ops.foldl step {}

end SeriRegistry

/-! ## Registrations, by the calls alone -/

section Registrations
variable (ops : List (Op R C F)) (uuidStr : String)

/-- Call `i` adds `e` for the uuid, and the catalog of `e` is not unregistered after it. -/
def AddsForGood (i : ℕ) (e : Entry R C F) : Prop :=
  ops[i]? = some (.add uuidStr e) ∧ .unregisterCatalog e.catId ∉ ops.drop (i + 1)

/-- The catalog is live and registered the uuid. -/
def Live (catId : CatalogId) : Prop := ∃ i e, AddsForGood ops uuidStr i e ∧ e.catId = catId

/-- Call `i` is the registration of `e` for the uuid: it adds `e`, whose catalog had no
registration for the uuid then, and is not unregistered after it. -/
def Registration (i : ℕ) (e : Entry R C F) : Prop :=
  AddsForGood ops uuidStr i e ∧ ¬ Live (ops.take i) uuidStr e.catId

end Registrations

/-! ## What one call does to the lists -/

namespace SeriRegistry

variable {r : SeriRegistry R C F} {uuidStr u : String} {e : Entry R C F} {catId : CatalogId}

theorem detectDuplicate_iff {innerList : List (Entry R C F)} :
    detectDuplicate innerList catId = true ↔ ∃ e ∈ innerList, e.catId = catId := by
  simp [detectDuplicate]

/-- A list for the uuid is there before the entry is pushed. -/
theorem add_eq (r : SeriRegistry R C F) (uuidStr : String) (e : Entry R C F) :
    ∃ entries : Table (Slot.uuidStr : Slot R C F → String),
      entries.find? uuidStr = some ⟨uuidStr, r.innerList uuidStr⟩ ∧
      (∀ u, u ≠ uuidStr → entries.find? u = r.entries.find? u) ∧
      (r.NoEmptyList → ∀ s ∈ entries, s.uuidStr ≠ uuidStr → s.innerList ≠ []) ∧
      r.add uuidStr e = { entries :=
        if detectDuplicate (r.innerList uuidStr) e.catId then entries
        else entries.modify uuidStr (Slot.pushFront e) (Slot.uuidStr_pushFront e) } := by
  by_cases hhas : r.entries.Has uuidStr
  · obtain ⟨slot, hslot, rfl⟩ := hhas
    have hfind : r.entries.find? slot.uuidStr = some slot := Table.find?_eq_some.mpr ⟨hslot, rfl⟩
    have hlist : r.innerList slot.uuidStr = slot.innerList := by rw [innerList, hfind]; rfl
    refine ⟨r.entries, by rw [hfind, hlist], fun _ _ => rfl, fun h s hs _ => h s hs, ?_⟩
    rw [add, if_pos ⟨slot, hslot, rfl⟩, hfind, hlist]
    dsimp only
    split <;> rfl
  · let slot : Slot R C F := { uuidStr, innerList := [] }
    have hnew : ¬ r.entries.Has slot.uuidStr := hhas
    have hlist : r.innerList uuidStr = [] := by rw [innerList, Table.not_has.mp hhas]; rfl
    have hfind : (r.entries.insert slot).find? uuidStr = some slot := by
      rw [Table.find?_insert hnew, if_pos rfl]
    refine ⟨r.entries.insert slot, by rw [hfind, hlist], fun u hu => ?_, fun h s hs hne => ?_, ?_⟩
    · rw [Table.find?_insert hnew, if_neg hu]
    · rcases (Table.mem_insert hnew).mp hs with hs | rfl
      · exact h s hs
      · exact absurd rfl hne
    · rw [add, if_neg hhas, hfind, hlist]
      rfl

theorem innerList_add : (r.add uuidStr e).innerList u =
    if u = uuidStr ∧ ¬ detectDuplicate (r.innerList uuidStr) e.catId then e :: r.innerList u
    else r.innerList u := by
  obtain ⟨entries, hself, hother, -, hadd⟩ := add_eq r uuidStr e
  have hentries : ((entries.find? u).map Slot.innerList).getD [] = r.innerList u := by
    by_cases hu : u = uuidStr
    · rw [hu, hself]
      rfl
    · rw [hother u hu, innerList]
  rw [hadd]
  by_cases hdup : detectDuplicate (r.innerList uuidStr) e.catId = true
  · rw [if_pos hdup, if_neg (fun h => h.2 hdup), innerList, hentries]
  · rw [if_neg hdup]
    by_cases hu : u = uuidStr
    · subst hu
      rw [if_pos ⟨rfl, hdup⟩, innerList, Table.find?_modify_self, hself]
      rfl
    · rw [if_neg (fun h => hu h.1), innerList, Table.find?_modify_ne hu, hentries]

theorem noEmptyList_add (h : r.NoEmptyList) : (r.add uuidStr e).NoEmptyList := by
  obtain ⟨entries, hself, -, hrest, hadd⟩ := add_eq r uuidStr e
  rw [hadd]
  intro s hs
  by_cases hdup : detectDuplicate (r.innerList uuidStr) e.catId = true
  · rw [if_pos hdup] at hs
    by_cases hu : s.uuidStr = uuidStr
    · have hfind : entries.find? uuidStr = some s := Table.find?_eq_some.mpr ⟨hs, hu⟩
      obtain ⟨x, hx, -⟩ := detectDuplicate_iff.mp hdup
      rw [hself, Option.some.injEq] at hfind
      rw [← hfind]
      exact List.ne_nil_of_mem hx
    · exact hrest h s hs hu
  · rw [if_neg hdup] at hs
    obtain ⟨s₀, hs₀, rfl⟩ := (Table.mem_modify (Slot.uuidStr_pushFront e)).mp hs
    by_cases hu : s₀.uuidStr = uuidStr
    · rw [if_pos hu]
      exact List.cons_ne_nil _ _
    · rw [if_neg hu]
      exact hrest h s₀ hs₀ hu

/-- Unregistering a catalog removes all of its entries and no others. -/
theorem innerList_unregisterCatalog :
    (r.unregisterCatalog catId).innerList u = (r.innerList u).filter fun e => e.catId ≠ catId := by
  rw [innerList, unregisterCatalog, Table.find?_filter, Table.find?_mapRows, innerList]
  cases r.entries.find? u with
  | none => rfl
  | some s =>
      rw [Option.map_some, Option.filter_some]
      by_cases hempty : (s.removeCatalog catId).innerList = []
      · rw [if_neg (by simp [hempty])]
        exact hempty.symm
      · rw [if_pos (by simpa using hempty)]
        rfl

theorem noEmptyList_unregisterCatalog : (r.unregisterCatalog catId).NoEmptyList := by
  intro s hs
  have hne := (Table.mem_filter.mp hs).2
  simpa using hne

theorem noEmptyList_run (ops : List (Op R C F)) : (run ops).NoEmptyList := by
  induction ops using List.reverseRecOn with
  | nil => exact fun s hs => absurd hs (Table.not_mem_empty s)
  | append_singleton ops op ih =>
      rw [run, List.foldl_append, List.foldl_cons, List.foldl_nil]
      cases op with
      | add uuidStr e => exact noEmptyList_add ih
      | unregisterCatalog catId => exact noEmptyList_unregisterCatalog

theorem findEntry_eq_ok (h : r.NoEmptyList) {verbose : Bool} :
    r.findEntry u verbose = .ok e ↔ (r.innerList u).head? = some e := by
  rw [findEntry, innerList]
  cases hfind : r.entries.find? u with
  | none => simp
  | some s =>
      have hne := h s (Table.find?_eq_some.mp hfind).1
      cases hlist : s.innerList with
      | nil => exact absurd hlist hne
      | cons x xs => simp [hlist]

end SeriRegistry

/-! ## What one call does to the registrations -/

section
variable {ops : List (Op R C F)} {op : Op R C F} {uuidStr : String} {i : ℕ} {e : Entry R C F}
  {catId : CatalogId}

theorem AddsForGood.lt (h : AddsForGood ops uuidStr i e) : i < ops.length :=
  (List.getElem?_eq_some_iff.mp h.1).1

theorem addsForGood_concat : AddsForGood (ops ++ [op]) uuidStr i e ↔
    AddsForGood ops uuidStr i e ∧ op ≠ .unregisterCatalog e.catId ∨
      i = ops.length ∧ op = .add uuidStr e := by
  rcases Nat.lt_trichotomy i ops.length with hi | rfl | hi
  · have hdrop : (ops ++ [op]).drop (i + 1) = ops.drop (i + 1) ++ [op] :=
      List.drop_append_of_le_length hi
    rw [AddsForGood, List.getElem?_append_left hi, hdrop, AddsForGood]
    have hne : i ≠ ops.length := Nat.ne_of_lt hi
    simp only [List.mem_append, List.mem_singleton, hne, false_and, or_false, eq_comm (b := op)]
    tauto
  · have hold : ¬ AddsForGood ops uuidStr ops.length e := fun h => Nat.lt_irrefl _ h.lt
    simp only [hold, false_and, false_or, true_and]
    simp [AddsForGood]
  · have hnew : ¬ AddsForGood (ops ++ [op]) uuidStr i e := fun h => by
      have := h.lt
      simp only [List.length_append, List.length_singleton] at this
      omega
    have hold : ¬ AddsForGood ops uuidStr i e := fun h => by
      have := h.lt
      omega
    simp only [hnew, hold, false_and, false_or, false_iff]
    omega

theorem live_concat : Live (ops ++ [op]) uuidStr catId ↔
    Live ops uuidStr catId ∧ op ≠ .unregisterCatalog catId ∨
      ∃ e, op = .add uuidStr e ∧ e.catId = catId := by
  constructor
  · rintro ⟨i, e, hadds, rfl⟩
    rcases addsForGood_concat.mp hadds with ⟨hadds, hne⟩ | ⟨-, hop⟩
    · exact .inl ⟨⟨i, e, hadds, rfl⟩, hne⟩
    · exact .inr ⟨e, hop, rfl⟩
  · rintro (⟨⟨i, e, hadds, rfl⟩, hne⟩ | ⟨e, hop, rfl⟩)
    · exact ⟨i, e, addsForGood_concat.mpr (.inl ⟨hadds, hne⟩), rfl⟩
    · exact ⟨ops.length, e, addsForGood_concat.mpr (.inr ⟨rfl, hop⟩), rfl⟩

theorem registration_concat : Registration (ops ++ [op]) uuidStr i e ↔
    Registration ops uuidStr i e ∧ op ≠ .unregisterCatalog e.catId ∨
      i = ops.length ∧ op = .add uuidStr e ∧ ¬ Live ops uuidStr e.catId := by
  rw [Registration, addsForGood_concat]
  constructor
  · rintro ⟨⟨hadds, hne⟩ | ⟨rfl, hop⟩, hlive⟩
    · rw [List.take_append_of_le_length hadds.lt.le] at hlive
      exact .inl ⟨⟨hadds, hlive⟩, hne⟩
    · rw [List.take_left] at hlive
      exact .inr ⟨rfl, hop, hlive⟩
  · rintro (⟨⟨hadds, hlive⟩, hne⟩ | ⟨rfl, hop, hlive⟩)
    · refine ⟨.inl ⟨hadds, hne⟩, ?_⟩
      rwa [List.take_append_of_le_length hadds.lt.le]
    · refine ⟨.inr ⟨rfl, hop⟩, ?_⟩
      rwa [List.take_left]

/-- A live catalog has a registration. -/
theorem live_iff : Live ops uuidStr catId ↔ ∃ i e, Registration ops uuidStr i e ∧ e.catId = catId := by
  refine ⟨fun h => ?_, fun ⟨i, e, hreg, hcat⟩ => ⟨i, e, hreg.1, hcat⟩⟩
  induction ops using List.reverseRecOn with
  | nil =>
      obtain ⟨i, e, hadds, -⟩ := h
      exact absurd hadds.lt (Nat.not_lt_zero i)
  | append_singleton ops op ih =>
      have hkept : Live ops uuidStr catId → op ≠ .unregisterCatalog catId →
          ∃ i e, Registration (ops ++ [op]) uuidStr i e ∧ e.catId = catId := by
        intro hlive hne
        obtain ⟨i, e, hreg, rfl⟩ := ih hlive
        exact ⟨i, e, registration_concat.mpr (.inl ⟨hreg, hne⟩), rfl⟩
      rcases live_concat.mp h with ⟨hlive, hne⟩ | ⟨e, rfl, rfl⟩
      · exact hkept hlive hne
      · by_cases hlive : Live ops uuidStr e.catId
        · exact hkept hlive (by simp)
        · exact ⟨ops.length, e, registration_concat.mpr (.inr ⟨rfl, rfl, hlive⟩), rfl⟩

/-- A catalog has at most one registration for a uuid. -/
theorem Registration.unique {j : ℕ} {e' : Entry R C F} (h : Registration ops uuidStr i e)
    (h' : Registration ops uuidStr j e') (hcat : e.catId = e'.catId) : i = j := by
  have hle : ∀ {i j : ℕ} {e e' : Entry R C F}, Registration ops uuidStr i e →
      Registration ops uuidStr j e' → e.catId = e'.catId → j ≤ i := by
    intro i j e e' h h' hcat
    by_contra hlt
    refine h'.2 ⟨i, e, ⟨?_, fun hmem => h.1.2 ?_⟩, hcat⟩
    · rw [List.getElem?_take_of_lt (by omega)]
      exact h.1.1
    · rw [← List.take_append_drop j ops, List.drop_append]
      exact List.mem_append_left _ hmem
  exact Nat.le_antisymm (hle h' h hcat.symm) (hle h h' hcat)

end

/-! ## Whole runs -/

namespace SeriRegistry

/-- The registry after the calls `ops`: the list of each uuid has its registrations, the newest
first, which is one entry for each live catalog that registered the uuid. -/
structure Reflects (ops : List (Op R C F)) (r : SeriRegistry R C F) : Prop where
  registrations : ∀ uuidStr, ∃ reg : List (ℕ × Entry R C F), reg.map Prod.snd = r.innerList uuidStr ∧
    reg.Pairwise (fun a b => b.1 < a.1) ∧ ∀ i e, (i, e) ∈ reg ↔ Registration ops uuidStr i e
  one_each : ∀ uuidStr, ((r.innerList uuidStr).map Entry.catId).Nodup ∧
    ∀ catId, catId ∈ (r.innerList uuidStr).map Entry.catId ↔ Live ops uuidStr catId
  no_empty_list : r.NoEmptyList

variable {ops : List (Op R C F)} {r : SeriRegistry R C F}

theorem one_each_of_registrations {uuidStr : String} {reg : List (ℕ × Entry R C F)}
    (hsorted : reg.Pairwise fun a b => b.1 < a.1)
    (hreg : ∀ i e, (i, e) ∈ reg ↔ Registration ops uuidStr i e) :
    ((reg.map Prod.snd).map Entry.catId).Nodup ∧
      ∀ catId, catId ∈ (reg.map Prod.snd).map Entry.catId ↔ Live ops uuidStr catId := by
  constructor
  · rw [List.map_map, List.Nodup, List.pairwise_map]
    refine List.Pairwise.imp_of_mem (fun {a b} ha hb hlt hcat => ?_) hsorted
    have := ((hreg a.1 a.2).mp ha).unique ((hreg b.1 b.2).mp hb) hcat
    omega
  · intro catId
    simp only [List.map_map, List.mem_map, live_iff, ← hreg, Function.comp_apply, Prod.exists]

theorem reflects_of_registrations (hempty : r.NoEmptyList)
    (h : ∀ uuidStr, ∃ reg : List (ℕ × Entry R C F), reg.map Prod.snd = r.innerList uuidStr ∧
      reg.Pairwise (fun a b => b.1 < a.1) ∧ ∀ i e, (i, e) ∈ reg ↔ Registration ops uuidStr i e) :
    Reflects ops r where
  registrations := h
  one_each uuidStr := by
    obtain ⟨reg, hlist, hsorted, hreg⟩ := h uuidStr
    rw [← hlist]
    exact one_each_of_registrations hsorted hreg
  no_empty_list := hempty

theorem Reflects.add (h : Reflects ops r) (uuidStr : String) (e : Entry R C F) :
    Reflects (ops ++ [.add uuidStr e]) (r.add uuidStr e) := by
  refine reflects_of_registrations (noEmptyList_add h.no_empty_list) fun u => ?_
  obtain ⟨reg, hlist, hsorted, hreg⟩ := h.registrations u
  have hdup : detectDuplicate (r.innerList uuidStr) e.catId = true ↔ Live ops uuidStr e.catId := by
    rw [detectDuplicate_iff, ← (h.one_each uuidStr).2, List.mem_map]
  have hkept : ∀ x : Entry R C F, Op.add uuidStr e ≠ .unregisterCatalog x.catId := fun _ => nofun
  rw [innerList_add]
  by_cases hnew : u = uuidStr ∧ ¬ detectDuplicate (r.innerList uuidStr) e.catId
  · rw [if_pos hnew]
    obtain ⟨rfl, hnew⟩ := hnew
    rw [hdup] at hnew
    refine ⟨(ops.length, e) :: reg, by rw [List.map_cons, hlist], ?_, fun i x => ?_⟩
    · refine List.pairwise_cons.mpr ⟨fun a ha => ?_, hsorted⟩
      exact ((hreg a.1 a.2).mp ha).1.lt
    · simp only [List.mem_cons, Prod.mk.injEq, hreg, registration_concat, Op.add.injEq, true_and]
      constructor
      · rintro (⟨rfl, rfl⟩ | hx)
        · exact .inr ⟨rfl, rfl, hnew⟩
        · exact .inl ⟨hx, hkept x⟩
      · rintro (⟨hx, -⟩ | ⟨rfl, rfl, -⟩)
        · exact .inr hx
        · exact .inl ⟨rfl, rfl⟩
  · rw [if_neg hnew]
    refine ⟨reg, hlist, hsorted, fun i x => ?_⟩
    rw [hreg, registration_concat]
    refine ⟨fun hx => .inl ⟨hx, hkept x⟩, ?_⟩
    rintro (⟨hx, -⟩ | ⟨-, hop, hlive⟩)
    · exact hx
    · rw [Op.add.injEq] at hop
      obtain ⟨rfl, rfl⟩ := hop
      exact absurd ⟨rfl, mt hdup.mp hlive⟩ hnew

theorem Reflects.unregisterCatalog (h : Reflects ops r) (catId : CatalogId) :
    Reflects (ops ++ [.unregisterCatalog catId]) (r.unregisterCatalog catId) := by
  refine reflects_of_registrations noEmptyList_unregisterCatalog fun u => ?_
  obtain ⟨reg, hlist, hsorted, hreg⟩ := h.registrations u
  refine ⟨reg.filter fun a => a.2.catId ≠ catId, ?_, hsorted.filter _, fun i x => ?_⟩
  · rw [innerList_unregisterCatalog, ← hlist, List.filter_map]
    rfl
  · have hlast : ¬ (i = ops.length ∧ Op.unregisterCatalog catId = Op.add u x ∧
        ¬ Live ops u x.catId) := nofun
    have hother : Op.unregisterCatalog (R := R) (C := C) (F := F) catId
        ≠ .unregisterCatalog x.catId ↔ x.catId ≠ catId := by
      rw [ne_eq, Op.unregisterCatalog.injEq, eq_comm]
    rw [List.mem_filter, hreg, registration_concat, or_iff_left hlast, hother, decide_eq_true_eq]

theorem reflects_run (ops : List (Op R C F)) : Reflects ops (run ops) := by
  induction ops using List.reverseRecOn with
  | nil =>
      refine reflects_of_registrations (fun s hs => absurd hs (Table.not_mem_empty s)) fun u => ?_
      refine ⟨[], rfl, .nil, fun i e => ⟨nofun, fun h => ?_⟩⟩
      exact absurd h.1.lt (Nat.not_lt_zero i)
  | append_singleton ops op ih =>
      rw [run, List.foldl_append, List.foldl_cons, List.foldl_nil]
      cases op with
      | add uuidStr e => exact ih.add uuidStr e
      | unregisterCatalog catId => exact ih.unregisterCatalog catId

/-- The entry at the front of the list is the newest registration. -/
theorem Reflects.head_eq (h : Reflects ops r) {uuidStr : String} {e : Entry R C F} :
    (r.innerList uuidStr).head? = some e ↔ ∃ i, Registration ops uuidStr i e ∧
      ∀ j e', Registration ops uuidStr j e' → j ≤ i := by
  obtain ⟨reg, hlist, hsorted, hreg⟩ := h.registrations uuidStr
  rw [← hlist]
  cases reg with
  | nil =>
      refine ⟨nofun, ?_⟩
      rintro ⟨i, hi, -⟩
      exact absurd ((hreg i e).mpr hi) List.not_mem_nil
  | cons a reg =>
      obtain ⟨hfirst, -⟩ := List.pairwise_cons.mp hsorted
      have hmax : ∀ j e', Registration ops uuidStr j e' → (j, e') = a ∨ j < a.1 := fun j e' hj =>
        (List.mem_cons.mp ((hreg j e').mpr hj)).imp_right fun hmem => hfirst (j, e') hmem
      have ha : Registration ops uuidStr a.1 a.2 := (hreg a.1 a.2).mp List.mem_cons_self
      simp only [List.map_cons, List.head?_cons, Option.some.injEq]
      constructor
      · rintro rfl
        refine ⟨a.1, ha, fun j e' hj => ?_⟩
        rcases hmax j e' hj with rfl | hlt
        · exact le_rfl
        · exact hlt.le
      · rintro ⟨i, hi, hle⟩
        rcases hmax i e hi with rfl | hlt
        · rfl
        · exact absurd hlt (not_lt.mpr (hle a.1 a.2 ha))

/-- **The registry over whole runs**: after any sequence of calls each uuid has one entry for
every live catalog that registered it, the newest registration first; `find_entry` finds the
newest, and fails exactly if no live catalog has the uuid; and unregistering a catalog
removes all of its entries and no others. -/
theorem registry_of_run (ops : List (Op R C F)) :
    Reflects ops (run ops) ∧
    (∀ uuidStr verbose,
      (∀ e, (run ops).findEntry uuidStr verbose = .ok e ↔ ∃ i, Registration ops uuidStr i e ∧
        ∀ j e', Registration ops uuidStr j e' → j ≤ i) ∧
      ((∃ error, (run ops).findEntry uuidStr verbose = .error error) ↔
        ∀ catId, ¬ Live ops uuidStr catId)) ∧
    ∀ catId uuidStr, ((run ops).unregisterCatalog catId).innerList uuidStr
      = ((run ops).innerList uuidStr).filter fun e => e.catId ≠ catId := by
  have h := reflects_run ops
  refine ⟨h, fun uuidStr verbose => ⟨fun e => ?_, ?_⟩, fun _ _ => innerList_unregisterCatalog⟩
  · rw [findEntry_eq_ok h.no_empty_list, h.head_eq]
  · have hnone : (∃ error, (run ops).findEntry uuidStr verbose = .error error) ↔
        (run ops).innerList uuidStr = [] := by
      rw [← List.head?_eq_none_iff]
      cases hfind : (run ops).findEntry uuidStr verbose with
      | ok e => simp [(findEntry_eq_ok h.no_empty_list).mp hfind]
      | error error =>
          refine ⟨fun _ => ?_, fun _ => ⟨error, rfl⟩⟩
          refine Option.eq_none_iff_forall_ne_some.mpr fun e he => ?_
          rw [(findEntry_eq_ok h.no_empty_list).mpr he] at hfind
          cases hfind
    simp only [hnone, ← (h.one_each uuidStr).2, ← List.map_eq_nil_iff (f := Entry.catId),
      List.eq_nil_iff_forall_not_mem]

/-- Two catalogs, the first of which registers again and is unregistered at the end. -/
example :
    let entry (catId : CatalogId) : Entry Unit Unit Unit := ⟨catId, none, (), none⟩
    ((run [.add "f" (entry 1), .add "f" (entry 2), .add "f" (entry 1)]).innerList "f")
        = [entry 2, entry 1] ∧
      (run [.add "f" (entry 1), .add "f" (entry 2), .unregisterCatalog 2]).findEntry "f" true
        = .ok (entry 1) := by
  decide

end SeriRegistry
end Cradle.Registry
