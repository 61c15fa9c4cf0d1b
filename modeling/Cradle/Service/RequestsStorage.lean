import Cradle.Lib.Table

/-!
# Requests storages

`inner_resources` owns the requests storages, in a map from their names, and keeps a
pointer to the default one beside the map.  At most one storage is registered as the
default, and that one is meant to be what `requests_storage()` returns.  The pointer is
set by each accepted call, though, whatever its flag says.

A storage is known by its `name`; two storages that are registered at the same time have
different names.
-/

namespace Cradle.Service

/-- The requests storages of `inner_resources_impl`. -/
structure InnerResources {S : Type*} (name : S → String) where
  requestsStorages : Table name := ∅
  defaultRequestsStorage : Option S := none

section
variable {S : Type*} {name : S → String}

namespace InnerResources

/-- `set_requests_storage`, with the resources that it leaves. -/
def setRequestsStorage (r : InnerResources name) (storage : S) (isDefault : Bool) :
    Except String Unit × InnerResources name :=
  if r.requestsStorages.Has (name storage) then
    (.error ("inner_resources already has requests storage named " ++ name storage), r)
  else if isDefault = true ∧ r.defaultRequestsStorage.isSome = true then
    (.error "inner_resources already has a default requests storage", r)
  else
    let r := { r with defaultRequestsStorage := some storage }
    (.ok (), { r with requestsStorages := r.requestsStorages.insert storage })

/-- `requests_storage()`. -/
def requestsStorage (r : InnerResources name) : Except String S :=
  match r.defaultRequestsStorage with
  | none => .error "inner_resources has no default requests storage"
  | some storage => .ok storage

/-- `requests_storage(name)`. -/
def requestsStorageNamed (r : InnerResources name) (n : String) : Except String S :=
  match r.requestsStorages.find? n with
  | none => .error ("inner_resources has no requests storage named " ++ n)
  | some storage => .ok storage

end InnerResources

/-! ## What the registrations are for -/

/-- The arguments of a call. -/
structure Registration (S : Type*) where
  storage : S
  isDefault : Bool

/-- The resources, and the calls that have been accepted. -/
structure Session (name : S → String) where
  resources : InnerResources name := {}
  accepted : List (Registration S) := []

namespace Session

/-- Whether a call throws. -/
def Rejects (s : Session name) (c : Registration S) : Prop :=
  (s.resources.setRequestsStorage c.storage c.isDefault).1 ≠ .ok ()

instance (s : Session name) (c : Registration S) : Decidable (s.Rejects c) :=
  match h : (s.resources.setRequestsStorage c.storage c.isDefault).1 with
  | .ok () => .isFalse fun hr => hr h
  | .error _ => .isTrue (by simp [Rejects, h])

/-- A call of `set_requests_storage`. -/
def register (s : Session name) (c : Registration S) : Session name where
  resources := (s.resources.setRequestsStorage c.storage c.isDefault).2
  accepted := if s.Rejects c then s.accepted else s.accepted ++ [c]

def run (s : Session name) (calls : List (Registration S)) : Session name :=
  calls.foldl register s

/-- The name is taken, or there would be a second default. -/
def Conflicts (s : Session name) (c : Registration S) : Prop :=
  (∃ a ∈ s.accepted, name a.storage = name c.storage) ∨
    (c.isDefault = true ∧ ∃ a ∈ s.accepted, a.isDefault = true)

/-- A call throws exactly where it has to, and then changes nothing. -/
def Guards (s : Session name) (c : Registration S) : Prop :=
  (s.Rejects c ↔ s.Conflicts c) ∧ (s.Rejects c → (s.register c).resources = s.resources)

/-- The storages are found that have been accepted, as the default and by name. -/
structure LooksUp (s : Session name) : Prop where
  default : ∀ storage, s.resources.requestsStorage = .ok storage
    ↔ ∃ a ∈ s.accepted, a.isDefault = true ∧ a.storage = storage
  named : ∀ n storage, s.resources.requestsStorageNamed n = .ok storage
    ↔ ∃ a ∈ s.accepted, name a.storage = n ∧ a.storage = storage

end Session

/-- Every call is guarded, and the storages are found afterwards. -/
def AsDocumented (name : S → String) (calls : List (Registration S)) : Prop :=
  (∀ before c after, calls = before ++ c :: after → (Session.run {} before : Session name).Guards c)
    ∧ (Session.run {} calls : Session name).LooksUp

/-- The first call asks to be the default, and no later one both is accepted and does
not ask for it: it has the name of the first. -/
def DefaultFirst (name : S → String) : List (Registration S) → Prop
  | [] => True
  | c :: cs => c.isDefault = true
      ∧ ∀ d ∈ cs, d.isDefault = true ∨ name d.storage = name c.storage

/-! ## What the pointer is -/

namespace Session

/-- The map has the accepted storages; the pointer is set to the last of them, and only
the first can have asked to be the default. -/
structure Invariant (s : Session name) : Prop where
  rows : s.resources.requestsStorages.rows = s.accepted.map Registration.storage
  pointer : s.resources.defaultRequestsStorage
    = s.accepted.getLast?.map Registration.storage
  later : ∀ a ∈ s.accepted.tail, a.isDefault = false

variable {s : Session name} {c : Registration S}

theorem Invariant.has_iff (h : s.Invariant) (n : String) :
    s.resources.requestsStorages.Has n ↔ ∃ a ∈ s.accepted, name a.storage = n := by
  simp only [Table.Has, ← Table.mem_rows, h.rows, List.mem_map]
  constructor
  · rintro ⟨_, ⟨a, ha, rfl⟩, hn⟩
    exact ⟨a, ha, hn⟩
  · rintro ⟨a, ha, hn⟩
    exact ⟨a.storage, ⟨a, ha, rfl⟩, hn⟩

theorem Invariant.isSome_iff (h : s.Invariant) :
    s.resources.defaultRequestsStorage.isSome = true ↔ s.accepted ≠ [] := by
  rw [h.pointer]
  simp

/-- Once a storage has been accepted, no default is. -/
theorem Invariant.rejects_iff (h : s.Invariant) : s.Rejects c
    ↔ (∃ a ∈ s.accepted, name a.storage = name c.storage)
      ∨ (c.isDefault = true ∧ s.accepted ≠ []) := by
  rw [Rejects, InnerResources.setRequestsStorage]
  split
  case isTrue hname => simp [(h.has_iff _).mp hname]
  case isFalse hname =>
      rw [h.has_iff] at hname
      split
      case isTrue hdefault =>
          rw [h.isSome_iff] at hdefault
          simp [hdefault]
      case isFalse hdefault =>
          rw [h.isSome_iff] at hdefault
          simp [hname, hdefault]

/-- A call that is rejected leaves everything as it was. -/
theorem register_of_rejects (h : s.Rejects c) : s.register c = s := by
  have hresources : (s.resources.setRequestsStorage c.storage c.isDefault).2 = s.resources := by
    rw [Rejects, InnerResources.setRequestsStorage] at h
    rw [InnerResources.setRequestsStorage]
    split
    · rfl
    · split
      · rfl
      · rename_i hname hdefault
        rw [if_neg hname, if_neg hdefault] at h
        exact absurd rfl h
  rw [register, hresources, if_pos h]

theorem register_of_accepts (h : ¬ s.Rejects c) : s.register c
    = { resources :=
          { requestsStorages := s.resources.requestsStorages.insert c.storage
            defaultRequestsStorage := some c.storage }
        accepted := s.accepted ++ [c] } := by
  rw [register, if_neg h]
  rw [Rejects, InnerResources.setRequestsStorage] at h
  rw [InnerResources.setRequestsStorage]
  split
  · rename_i hname
    rw [if_pos hname] at h
    exact absurd (by simp) h
  · split
    · rename_i hname hdefault
      rw [if_neg hname, if_pos hdefault] at h
      exact absurd (by simp) h
    · rfl

theorem Invariant.register (h : s.Invariant) (c : Registration S) : (s.register c).Invariant := by
  by_cases hr : s.Rejects c
  · rw [register_of_rejects hr]
    exact h
  · have hfree := hr
    rw [h.rejects_iff, not_or] at hfree
    have hname : ¬ s.resources.requestsStorages.Has (name c.storage) := by
      rw [h.has_iff]
      exact hfree.1
    rw [register_of_accepts hr]
    constructor
    · rw [Table.rows_insert hname, h.rows]
      simp
    · simp
    · cases ha : s.accepted with
      | nil => simp
      | cons a as =>
          have hc : c.isDefault = false := by simpa [ha] using hfree.2
          intro b hb
          rw [List.cons_append, List.tail_cons, List.mem_append, List.mem_singleton] at hb
          rcases hb with hb | rfl
          · exact h.later b (by rwa [ha])
          · exact hc

theorem invariant_empty : ({} : Session name).Invariant := by
  constructor <;> simp

theorem Invariant.run (h : s.Invariant) (calls : List (Registration S)) :
    (s.run calls).Invariant := by
  induction calls generalizing s with
  | nil => exact h
  | cons c cs ih => exact ih (h.register c)

/-! ## Lookups -/

/-- The lookup by name finds what has been accepted, always. -/
theorem Invariant.named (h : s.Invariant) (n : String) (storage : S) :
    s.resources.requestsStorageNamed n = .ok storage
      ↔ ∃ a ∈ s.accepted, name a.storage = n ∧ a.storage = storage := by
  have hfind : s.resources.requestsStorageNamed n = .ok storage
      ↔ s.resources.requestsStorages.find? n = some storage := by
    rw [InnerResources.requestsStorageNamed]
    split <;> simp [*]
  rw [hfind, Table.find?_eq_some, ← Table.mem_rows, h.rows, List.mem_map]
  constructor
  · rintro ⟨⟨a, ha, rfl⟩, hn⟩
    exact ⟨a, ha, hn, rfl⟩
  · rintro ⟨a, ha, hn, rfl⟩
    exact ⟨⟨a, ha, rfl⟩, hn⟩

theorem Invariant.default_iff (h : s.Invariant) (storage : S) :
    s.resources.requestsStorage = .ok storage
      ↔ s.accepted.getLast?.map Registration.storage = some storage := by
  rw [InnerResources.requestsStorage, ← h.pointer]
  split <;> simp [*]

/-- No two accepted calls have storages with the same name. -/
theorem Invariant.nodup (h : s.Invariant) :
    (s.accepted.map fun a => name a.storage).Nodup := by
  have hnodup := s.resources.requestsStorages.nodup
  rwa [h.rows, List.map_map] at hnodup

/-- With something accepted, the default is the right one only if it is the only storage. -/
theorem Invariant.only_default (h : s.Invariant) (hlook : s.LooksUp)
    {as : List (Registration S)} (ha : s.accepted = c :: as) : c.isDefault = true ∧ as = [] := by
  obtain ⟨l, hl⟩ : ∃ l, s.accepted.getLast? = some l := by
    rw [ha]
    exact ⟨_, List.getLast?_eq_some_getLast (List.cons_ne_nil c as)⟩
  have hpointer : s.resources.requestsStorage = .ok l.storage := by
    rw [h.default_iff, hl]
    rfl
  obtain ⟨a, hmem, hdefault, hstorage⟩ := (hlook.default l.storage).mp hpointer
  -- only the first call can have asked for it
  have hac : a = c := by
    rw [ha] at hmem
    rcases List.mem_cons.mp hmem with hac | hmem
    · exact hac
    · have := h.later a (by rwa [ha])
      simp [this] at hdefault
  subst hac
  refine ⟨hdefault, ?_⟩
  cases as with
  | nil => rfl
  | cons b bs =>
      have hlast : l ∈ b :: bs := by
        rw [ha, List.getLast?_cons_cons] at hl
        exact List.mem_of_getLast? hl
      have hnodup := h.nodup
      rw [ha, List.map_cons, List.nodup_cons] at hnodup
      refine absurd ?_ hnodup.1
      rw [hstorage]
      exact List.mem_map.mpr ⟨l, hlast, rfl⟩

/-! ## Which histories go wrong -/

/-- What has been accepted stays accepted. -/
theorem accepted_isPrefix_run (s : Session name) (calls : List (Registration S)) :
    s.accepted <+: (s.run calls).accepted := by
  induction calls generalizing s with
  | nil => exact List.prefix_rfl
  | cons c cs ih =>
      refine List.IsPrefix.trans ?_ (ih (s.register c))
      by_cases hr : s.Rejects c
      · have hsame : (s.register c).accepted = s.accepted := by rw [register_of_rejects hr]
        exact hsame ▸ List.prefix_rfl
      · rw [register_of_accepts hr]
        exact List.prefix_append _ _

/-- Where nothing more is accepted, every call was rejected in the same session. -/
theorem rejects_of_accepted_eq {calls : List (Registration S)}
    (h : (s.run calls).accepted = s.accepted) : ∀ c ∈ calls, s.Rejects c := by
  induction calls with
  | nil => simp
  | cons c cs ih =>
      have hc : s.Rejects c := by
        by_contra hr
        have hlen := (accepted_isPrefix_run (s.register c) cs).length_le
        have hlonger : (s.register c).accepted.length = s.accepted.length + 1 := by
          simp [register_of_accepts hr]
        have hsame : ((s.register c).run cs).accepted.length = s.accepted.length :=
          congrArg List.length h
        omega
      rw [run, List.foldl_cons, register_of_rejects hc] at h
      exact List.forall_mem_cons.mpr ⟨hc, ih h⟩

theorem run_of_rejects {calls : List (Registration S)} (h : ∀ c ∈ calls, s.Rejects c) :
    s.run calls = s := by
  induction calls with
  | nil => rfl
  | cons c cs ih =>
      obtain ⟨hc, hcs⟩ := List.forall_mem_cons.mp h
      rw [run, List.foldl_cons, register_of_rejects hc]
      exact ih hcs

/-- The session after the first call. -/
theorem accepted_first (c : Registration S) :
    (({} : Session name).register c).accepted = [c] := by
  have hr : ¬ ({} : Session name).Rejects c := by
    rw [invariant_empty.rejects_iff]
    simp
  rw [register_of_accepts hr]
  rfl

theorem rejects_after_first (c d : Registration S) : (({} : Session name).register c).Rejects d
    ↔ d.isDefault = true ∨ name d.storage = name c.storage := by
  rw [(invariant_empty.register c).rejects_iff, accepted_first, or_comm]
  simp [eq_comm (a := name c.storage)]

/-- A session whose only storage is the default. -/
theorem Invariant.looksUp (h : s.Invariant) (ha : s.accepted = [c])
    (hc : c.isDefault = true) : s.LooksUp where
  default storage := by
    rw [h.default_iff, ha]
    simp [hc]
  named := h.named

theorem Invariant.guards (h : s.Invariant) (c : Registration S)
    (hdefault : s.accepted ≠ [] → ∃ a ∈ s.accepted, a.isDefault = true) : s.Guards c := by
  refine ⟨?_, fun hr => by rw [register_of_rejects hr]⟩
  rw [h.rejects_iff, Conflicts]
  refine or_congr Iff.rfl (and_congr Iff.rfl ⟨hdefault, ?_⟩)
  rintro ⟨a, ha, -⟩
  exact List.ne_nil_of_mem ha

end Session

open Session

/-- The registrations are documented exactly where the default comes first and stays the
only storage. -/
theorem asDocumented_iff (name : S → String) (calls : List (Registration S)) :
    AsDocumented name calls ↔ DefaultFirst name calls := by
  cases calls with
  | nil =>
      refine iff_of_true ⟨by simp, ?_⟩ trivial
      constructor
      · simp [Session.run, InnerResources.requestsStorage]
      · exact invariant_empty.named
  | cons c cs =>
      have hfirst : ({} : Session name).run (c :: cs) = (({} : Session name).register c).run cs :=
        rfl
      constructor
      · rintro ⟨-, hlook⟩
        have hempty : ({} : Session name).Invariant := invariant_empty
        have hinv := hempty.run (c :: cs)
        have hprefix := accepted_isPrefix_run (({} : Session name).register c) cs
        rw [accepted_first, ← hfirst] at hprefix
        obtain ⟨as, has⟩ := hprefix
        obtain ⟨hc, rfl⟩ := hinv.only_default hlook has.symm
        refine ⟨hc, fun d hd => ?_⟩
        refine (rejects_after_first c d).mp (rejects_of_accepted_eq ?_ d hd)
        rw [← hfirst, ← has, accepted_first]
        rfl
      · rintro ⟨hc, hcs⟩
        have hrejects : ∀ d ∈ cs, (({} : Session name).register c).Rejects d := fun d hd =>
          (rejects_after_first c d).mpr (hcs d hd)
        constructor
        · intro before d after heq
          cases before with
          | nil => exact invariant_empty.guards d (by simp)
          | cons b bs =>
              obtain ⟨rfl, rfl⟩ := List.cons.inj heq
              have hrun : ({} : Session name).run (c :: bs) = ({} : Session name).register c :=
                run_of_rejects fun e he => hrejects e (List.mem_append_left _ he)
              rw [hrun]
              refine (invariant_empty.register c).guards d fun _ => ?_
              rw [accepted_first]
              exact ⟨c, List.mem_singleton_self c, hc⟩
        · rw [hfirst, run_of_rejects hrejects]
          exact (invariant_empty.register c).looksUp (accepted_first c) hc

/-- A second storage that does not ask for it takes the place of the default. -/
theorem not_asDocumented_second : ¬ ∀ calls : List (Registration String),
    AsDocumented id calls := by
  intro h
  obtain ⟨-, hlook⟩ := h [⟨"simple", true⟩, ⟨"http", false⟩]
  obtain ⟨a, hmem, hdefault, hstorage⟩ := (hlook.default "http").mp (by decide)
  have haccepted : (Session.run {} [⟨"simple", true⟩, ⟨"http", false⟩] : Session id).accepted
      = [⟨"simple", true⟩, ⟨"http", false⟩] := rfl
  rw [haccepted] at hmem
  simp at hmem
  rcases hmem with rfl | rfl
  · simp at hstorage
  · simp at hdefault

end
end Cradle.Service
