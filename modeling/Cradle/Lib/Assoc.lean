import Mathlib.Order.Basic
import Mathlib.Order.Defs.LinearOrder
import Mathlib.Data.List.Forall2
import Mathlib.Data.List.Nodup
import Mathlib.Data.List.Perm.Basic

/-!
# Ordered association lists

A `std::map` seen as the list of its entries in the order of their keys.  `assign` is the
assignment through `operator[]`; what it does to a lookup does not depend on the order of
the list, and on a sorted list it keeps the order.
-/

namespace Assoc

variable {κ α β : Type*}

/-- The entries are in the order of their keys, without repetition. -/
def Sorted [LT κ] (xs : List (κ × α)) : Prop := xs.Pairwise fun x y => x.1 < y.1

/-- Assign to `map[k]`. -/
def assign [LT κ] [DecidableLT κ] (k : κ) (v : α) : List (κ × α) → List (κ × α)
  | [] => [(k, v)]
  | (l, x) :: xs =>
      if l < k then (l, x) :: assign k v xs
      else if k < l then (k, v) :: (l, x) :: xs
      else (k, v) :: xs

/-- `std::map::find`. -/
def find [DecidableEq κ] (k : κ) (xs : List (κ × α)) : Option α :=
  (xs.find? fun x => x.1 = k).map Prod.snd

/-- Assign the entries one after the other. -/
def ofEntries [LT κ] [DecidableLT κ] (xs : List (κ × α)) : List (κ × α) :=
  xs.foldl (fun m x => assign x.1 x.2 m) []

theorem sorted_iff_keys [LT κ] {xs : List (κ × α)} :
    Sorted xs ↔ (xs.map Prod.fst).Pairwise (· < ·) := List.pairwise_map.symm

theorem Sorted.nodup [LT κ] [Std.Irrefl fun a b : κ => a < b] {xs : List (κ × α)}
    (h : Sorted xs) : (xs.map Prod.fst).Nodup :=
  List.Pairwise.imp (fun {a b} hlt (heq : a = b) => Std.Irrefl.irrefl b (heq ▸ hlt))
    (sorted_iff_keys.mp h)

section
variable [DecidableEq κ] {k l : κ} {x : α} {xs : List (κ × α)}

theorem find_nil : find k ([] : List (κ × α)) = none := rfl

theorem find_cons : find k ((l, x) :: xs) = if l = k then some x else find k xs := by
  by_cases h : l = k <;> simp [find, h]

theorem find_isSome_iff : (find k xs).isSome = true ↔ k ∈ xs.map Prod.fst := by
  induction xs with
  | nil => simp [find_nil]
  | cons y xs ih =>
      obtain ⟨l, y⟩ := y
      rw [find_cons]
      by_cases hl : l = k
      · simp [hl]
      · simp [hl, ih, Ne.symm hl]

/-- Where no key occurs twice, the entry of a key is the one that is found. -/
theorem mem_iff_find (h : (xs.map Prod.fst).Nodup) : (k, x) ∈ xs ↔ find k xs = some x := by
  induction xs with
  | nil => simp [find_nil]
  | cons y xs ih =>
      obtain ⟨l, y⟩ := y
      obtain ⟨hl, hxs⟩ := List.nodup_cons.mp h
      rw [find_cons, List.mem_cons]
      by_cases hk : l = k
      · subst hk
        have hnot : (l, x) ∉ xs := fun hmem => hl (List.mem_map.mpr ⟨(l, x), hmem, rfl⟩)
        simp [hnot, eq_comm]
      · simp [hk, Ne.symm hk, ih hxs]

theorem find_append {ys : List (κ × α)} :
    find k (xs ++ ys) = (find k xs).or (find k ys) := by
  induction xs with
  | nil => rfl
  | cons y xs ih =>
      obtain ⟨l, y⟩ := y
      rw [List.cons_append, find_cons, find_cons, ih]
      split <;> rfl

theorem find_eq_none (h : k ∉ xs.map Prod.fst) : find k xs = none := by
  rwa [← Option.not_isSome_iff_eq_none, find_isSome_iff]

theorem find_map_snd {f : α → β} :
    find k (xs.map fun x => (x.1, f x.2)) = (find k xs).map f := by
  induction xs with
  | nil => rfl
  | cons y xs ih =>
      obtain ⟨l, y⟩ := y
      rw [List.map_cons, find_cons, find_cons, ih]
      split <;> rfl

/-- Of the entries with a key the last one counts. -/
theorem find_reverse_append_cons {ys : List (κ × α)} (h : k ∉ ys.map Prod.fst) :
    find k (xs ++ (k, x) :: ys).reverse = some x := by
  rw [List.reverse_append, List.reverse_cons, List.append_assoc, find_append,
    find_eq_none (by simpa using h), Option.none_or, List.singleton_append, find_cons, if_pos rfl]

end

section
variable [LT κ] [DecidableLT κ] {k l : κ} {v : α} {xs : List (κ × α)}

/-- What is assigned is found, and the other keys are as before. -/
theorem find_assign [DecidableEq κ] [Std.Irrefl fun a b : κ => a < b]
    [Std.Trichotomous fun a b : κ => a < b] :
    find k (assign l v xs) = if l = k then some v else find k xs := by
  induction xs with
  | nil => rw [assign, find_cons]
  | cons y xs ih =>
      obtain ⟨m, y⟩ := y
      rw [assign]
      split
      · rename_i hml
        rw [find_cons, ih, find_cons]
        by_cases hl : l = k
        · have hm : m ≠ k := fun hm => Std.Irrefl.irrefl k (hl ▸ hm ▸ hml)
          rw [if_neg hm, if_pos hl, if_pos hl]
        · rw [if_neg hl, if_neg hl]
      · split
        · rw [find_cons]
        · rename_i hml hlm
          have hm : m = l := Std.Trichotomous.trichotomous m l hml hlm
          rw [find_cons, find_cons, hm]
          by_cases hl : l = k
          · rw [if_pos hl, if_pos hl]
          · rw [if_neg hl, if_neg hl, if_neg hl]

theorem mem_keys_assign [DecidableEq κ] [Std.Irrefl fun a b : κ => a < b]
    [Std.Trichotomous fun a b : κ => a < b] :
    k ∈ (assign l v xs).map Prod.fst ↔ k = l ∨ k ∈ xs.map Prod.fst := by
  rw [← find_isSome_iff, ← find_isSome_iff, find_assign]
  by_cases h : l = k
  · simp [h]
  · simp [h, Ne.symm h]

/-- Of the assignments to a key the last one counts. -/
theorem find_foldl_assign [DecidableEq κ] [Std.Irrefl fun a b : κ => a < b]
    [Std.Trichotomous fun a b : κ => a < b] {m : List (κ × α)} :
    find k (xs.foldl (fun m x => assign x.1 x.2 m) m) = (find k xs.reverse).or (find k m) := by
  induction xs generalizing m with
  | nil => rfl
  | cons x xs ih =>
      obtain ⟨l, x⟩ := x
      rw [List.foldl_cons, ih, find_assign, List.reverse_cons, find_append, Option.or_assoc,
        find_cons, find_nil]
      split <;> rfl

/-- A key above all others goes to the end. -/
theorem assign_of_forall_lt (h : ∀ x ∈ xs, x.1 < k) : assign k v xs = xs ++ [(k, v)] := by
  induction xs with
  | nil => rfl
  | cons y xs ih =>
      obtain ⟨hy, hxs⟩ := List.forall_mem_cons.mp h
      rw [assign, if_pos hy, ih hxs, List.cons_append]

/-- Assigning the entries of a sorted list in their order gives the list. -/
theorem ofEntries_of_sorted (h : Sorted xs) : ofEntries xs = xs := by
  have hfold : ∀ ys : List (κ × α), Sorted (ys ++ xs) →
      xs.foldl (fun m x => assign x.1 x.2 m) ys = ys ++ xs := by
    clear h
    induction xs with
    | nil => simp
    | cons x xs ih =>
        intro ys h
        have hlt : ∀ y ∈ ys, y.1 < x.1 := fun y hy =>
          (List.pairwise_append.mp h).2.2 y hy x List.mem_cons_self
        rw [List.foldl_cons, assign_of_forall_lt hlt, ih (ys ++ [(x.1, x.2)]) (by simpa using h)]
        simp
  simpa [ofEntries] using hfold [] (by simpa using h)

/-! ## What an assignment overwrites -/

/-- An assignment adds its entry, or takes the place of another one. -/
theorem assign_subperm : List.Subperm (assign k v xs) ((k, v) :: xs) := by
  induction xs with
  | nil => exact List.Subperm.refl _
  | cons y xs ih =>
      rw [assign]
      split
      · exact ((List.subperm_cons y).mpr ih).trans (List.Perm.swap (k, v) y xs).subperm
      · split
        · exact List.Subperm.refl _
        · exact (List.subperm_cons (k, v)).mpr (List.sublist_cons_self y xs).subperm

theorem foldl_assign_subperm (m : List (κ × α)) :
    List.Subperm (xs.foldl (fun m x => assign x.1 x.2 m) m) (xs ++ m) := by
  induction xs generalizing m with
  | nil => exact List.Subperm.refl m
  | cons x xs ih =>
      refine (ih _).trans ?_
      refine ((List.subperm_append_left xs).mpr assign_subperm).trans ?_
      exact List.perm_middle.subperm

theorem ofEntries_subperm : List.Subperm (ofEntries xs) xs := by
  have h : List.Subperm (ofEntries xs) (xs ++ []) := foldl_assign_subperm []
  rwa [List.append_nil] at h

section
variable [IsTrans κ (· < ·)] [Std.Trichotomous fun a b : κ => a < b]

theorem Sorted.assign (h : Sorted xs) : Sorted (assign k v xs) := by
  induction xs with
  | nil => exact List.pairwise_singleton _ _
  | cons y xs ih =>
      obtain ⟨hy, hxs⟩ := List.pairwise_cons.mp h
      rw [Assoc.assign]
      split
      case isTrue hyk =>
          refine List.pairwise_cons.mpr ⟨fun z hz => ?_, ih hxs⟩
          rcases List.mem_cons.mp (assign_subperm.subset hz) with rfl | hz
          · exact hyk
          · exact hy z hz
      case isFalse hyk =>
          split
          case isTrue hky =>
              refine List.pairwise_cons.mpr ⟨fun z hz => ?_, h⟩
              rcases List.mem_cons.mp hz with rfl | hz
              · exact hky
              · exact trans_of (· < ·) hky (hy z hz)
          case isFalse hky =>
              have hk : y.1 = k := Std.Trichotomous.trichotomous y.1 k hyk hky
              refine List.pairwise_cons.mpr ⟨fun z hz => ?_, hxs⟩
              rw [← hk]
              exact hy z hz

theorem sorted_ofEntries (xs : List (κ × α)) : Sorted (ofEntries xs) := by
  have hfold : ∀ m : List (κ × α), Sorted m →
      Sorted (xs.foldl (fun m x => Assoc.assign x.1 x.2 m) m) := by
    induction xs with
    | nil => exact fun _ h => h
    | cons x xs ih => exact fun m h => ih _ h.assign
  exact hfold [] List.Pairwise.nil

omit [IsTrans κ (· < ·)] in
/-- With a key that is not in the map yet an entry is added. -/
theorem assign_perm (h : k ∉ xs.map Prod.fst) : (Assoc.assign k v xs).Perm ((k, v) :: xs) := by
  induction xs with
  | nil => exact List.Perm.refl _
  | cons y xs ih =>
      rw [List.map_cons, List.mem_cons, not_or] at h
      rw [Assoc.assign]
      split
      case isTrue => exact ((ih h.2).cons y).trans (List.Perm.swap (k, v) y xs)
      case isFalse hyk =>
          split
          case isTrue => exact List.Perm.refl _
          case isFalse hky => exact absurd (Std.Trichotomous.trichotomous k y.1 hky hyk) h.1

variable [Std.Irrefl fun a b : κ => a < b]

omit [IsTrans κ (· < ·)] [Std.Trichotomous fun a b : κ => a < b] in
/-- With a key that is in the map its entry is replaced. -/
theorem Sorted.assign_perm_of_find [DecidableEq κ] (h : Sorted xs) {x : α}
    (hk : find k xs = some x) :
    ∃ rest, xs.Perm ((k, x) :: rest) ∧ (Assoc.assign k v xs).Perm ((k, v) :: rest) := by
  induction xs with
  | nil => cases hk
  | cons y xs ih =>
      obtain ⟨l, y⟩ := y
      obtain ⟨hy, hxs⟩ := List.pairwise_cons.mp h
      rw [find_cons] at hk
      rw [Assoc.assign]
      by_cases hl : l = k
      · rw [if_pos hl, Option.some.injEq] at hk
        subst hl hk
        rw [if_neg (Std.Irrefl.irrefl l), if_neg (Std.Irrefl.irrefl l)]
        exact ⟨xs, List.Perm.refl _, List.Perm.refl _⟩
      · rw [if_neg hl] at hk
        have hlk : l < k := hy _ ((mem_iff_find (Sorted.nodup hxs)).mpr hk)
        obtain ⟨rest, hperm, hassign⟩ := ih hxs hk
        rw [if_pos hlk]
        exact ⟨(l, y) :: rest, (hperm.cons _).trans (List.Perm.swap _ _ _),
          (hassign.cons _).trans (List.Perm.swap _ _ _)⟩

omit [Std.Trichotomous fun a b : κ => a < b] [DecidableLT κ] in
/-- A map is the entries that it has. -/
theorem Sorted.eq_of_perm {ys : List (κ × α)} (hx : Sorted xs) (hy : Sorted ys)
    (h : xs.Perm ys) : xs = ys := by
  refine h.eq_of_pairwise (fun x y _ _ hxy hyx => ?_) hx hy
  exact absurd (trans_of (· < ·) hxy hyx) (Std.Irrefl.irrefl x.1)

omit [Std.Trichotomous fun a b : κ => a < b] [DecidableLT κ] in
/-- A map is what is found in it. -/
theorem Sorted.eq_of_find [DecidableEq κ] {ys : List (κ × α)} (hx : Sorted xs) (hy : Sorted ys)
    (h : ∀ k, find k xs = find k ys) : xs = ys := by
  refine hx.eq_of_perm hy ?_
  have hxs : xs.Nodup := List.Nodup.of_map Prod.fst hx.nodup
  have hys : ys.Nodup := List.Nodup.of_map Prod.fst hy.nodup
  rw [List.perm_ext_iff_of_nodup hxs hys]
  rintro ⟨k, x⟩
  rw [mem_iff_find hx.nodup, mem_iff_find hy.nodup, h]

/-- No entry is overwritten exactly where no key is repeated. -/
theorem ofEntries_perm_iff :
    (ofEntries xs).Perm xs ↔ (xs.map Prod.fst).Nodup := by
  constructor
  · intro h
    exact (h.map Prod.fst).nodup_iff.mp (sorted_ofEntries xs).nodup
  · have hfold : ∀ m : List (κ × α), ((xs ++ m).map Prod.fst).Nodup →
        (xs.foldl (fun m x => Assoc.assign x.1 x.2 m) m).Perm (xs ++ m) := by
      induction xs with
      | nil => exact fun m _ => List.Perm.refl m
      | cons x xs ih =>
          intro m h
          have hperm : (xs ++ Assoc.assign x.1 x.2 m).Perm (x :: xs ++ m) := by
            refine (List.Perm.append_left xs (assign_perm fun hm => ?_)).trans List.perm_middle
            rw [List.cons_append, List.map_cons, List.nodup_cons, List.map_append] at h
            exact h.1 (List.mem_append_right _ hm)
          refine (ih _ ?_).trans hperm
          exact (hperm.map Prod.fst).nodup_iff.mpr h
    intro h
    have hperm := hfold [] (by rwa [List.append_nil])
    rwa [List.append_nil] at hperm

end

end

end Assoc
