import Mathlib.Algebra.BigOperators.Group.List.Basic
import Mathlib.Algebra.GroupWithZero.Nat
import Cradle.Lib.Comparison
import Cradle.Typing.WellFormed

/-!
# The order of the keys of a map

Without NaN `operator<` orders the values, two of which may be the same key.  A map that is
built by assignments has each key once: every assignment to a key that is there takes the
place of the one before.
-/

namespace Cradle
namespace Dynamic

open Comparison

variable {a b c k x : Dynamic} {m fs : List (Dynamic × Dynamic)}

/-! ## The order without NaN -/

instance : Std.TransCmp fun s t : Bytes => compareOfLessAndEq s t :=
  Std.TransOrd.compareOfLessAndEq_of_antisymm_of_trans_of_total_of_not_le List.le_antisymm
    List.le_trans List.le_total List.not_le

theorem itemsOrder_eq (as bs : List Dynamic) : itemsOrder as bs = List.compareLex order as bs := by
  induction as generalizing bs with
  | nil => cases bs <;> rfl
  | cons a as ih =>
      cases bs with
      | nil => rfl
      | cons b bs => rw [itemsOrder, ih, List.compareLex_cons_cons]

theorem fieldsOrder_eq (as bs : List (Dynamic × Dynamic)) : fieldsOrder as bs =
    List.compareLex (fun f g => (f.1.order g.1).then (f.2.order g.2)) as bs := by
  induction as generalizing bs with
  | nil => cases bs <;> rfl
  | cons f as ih =>
      cases bs with
      | nil => rfl
      | cons g bs => rw [fieldsOrder, ih, List.compareLex_cons_cons, Ordering.then_assoc]

theorem order_swap (a b : Dynamic) : (a.order b).swap = b.order a := by
  have hcompare {α : Type} [Ord α] [Std.OrientedOrd α] (x y : α) :
      (compare x y).swap = compare y x := Std.OrientedOrd.eq_swap.symm
  have hbytes (s t : Bytes) : (compareOfLessAndEq s t).swap = compareOfLessAndEq t s :=
    (compareOfLessAndEq_eq_swap List.le_antisymm List.le_total List.not_le).symm
  have hfloat (x y : Double) : (x.order y).swap = y.order x := by
    rw [Double.order, Double.order, Bool.or_comm]
    split
    · rfl
    · exact hcompare _ _
  induction a generalizing b with
  | array as ih =>
      cases b with
      | array bs =>
          rw [order, order, itemsOrder_eq, itemsOrder_eq]
          exact swap_compareLex fun a ha b => ih a ha b
      | _ => rfl
  | map as ih =>
      cases b with
      | map bs =>
          rw [order, order, fieldsOrder_eq, fieldsOrder_eq]
          refine swap_compareLex fun f hf g => ?_
          rw [Ordering.swap_then, (ih f hf).1, (ih f hf).2]
      | _ => rfl
  | float x =>
      cases b with
      | float y => exact hfloat x y
      | _ => rfl
  | string s =>
      cases b with
      | string t => exact hbytes s t
      | _ => rfl
  | blob x =>
      cases b with
      | blob y =>
          rw [order, order, Ordering.swap_then, hbytes, hcompare]
      | _ => rfl
  | boolean x =>
      cases b with
      | boolean y => exact hcompare x y
      | _ => rfl
  | integer i =>
      cases b with
      | integer j => exact hcompare i j
      | _ => rfl
  | datetime t =>
      cases b with
      | datetime u => exact hcompare t u
      | _ => rfl
  | nil => cases b <;> rfl

/-- Values of different types compare by their types. -/
theorem order_eq_then (a b : Dynamic) :
    a.order b = (compare a.type.index b.type.index).then (a.order b) := by
  cases a <;> cases b <;> rfl

theorem type_eq_of_index (h : compare a.type.index b.type.index = .eq) : a.type = b.type := by
  have hindex : a.type.index = b.type.index := Std.LawfulEqOrd.compare_eq_iff_eq.mp h
  cases ha : a.type <;> cases hb : b.type <;> rw [ha, hb] at hindex <;> first | rfl | cases hindex

theorem composes_double {x y z : Double} (hx : x.isNaN = false) (hy : y.isNaN = false)
    (hz : z.isNaN = false) : Composes (x.order y) (y.order z) (x.order z) := by
  have hranks := composes compare x.rank y.rank z.rank
  simpa only [Double.order, hx, hy, hz, Bool.or_self, Bool.false_eq_true, if_false] using hranks

/-- It is enough to look at values of one type. -/
theorem composes_of_type
    (h : a.type = b.type → b.type = c.type → Composes (a.order b) (b.order c) (a.order c)) :
    Composes (a.order b) (b.order c) (a.order c) := by
  have hindex := composes compare a.type.index b.type.index c.type.index
  rw [order_eq_then a b, order_eq_then b c, order_eq_then a c]
  exact hindex.then fun hab hbc => h (type_eq_of_index hab) (type_eq_of_index hbc)

theorem isNaN_of_equals {x : Double} (h : x.equals x = true) : x.isNaN = false := by
  simp only [Double.equals, Bool.and_eq_true, Bool.not_eq_true'] at h
  exact h.1.1

/-- A value without NaN equals itself. -/
theorem composes_order (ha : a.equals a = true) (hb : b.equals b = true)
    (hc : c.equals c = true) : Composes (a.order b) (b.order c) (a.order c) := by
  induction a generalizing b c with
  | array as ih =>
      refine composes_of_type fun hab hbc => ?_
      cases b <;> cases hab
      cases c <;> cases hbc
      rename_i bs cs
      rw [order, order, order]
      simp only [itemsOrder_eq]
      exact .compareLex (fun a h b c ha hb hc => ih a h ha hb hc)
        (List.forall₂_same.mp (equals_array.mp ha)) (List.forall₂_same.mp (equals_array.mp hb))
        (List.forall₂_same.mp (equals_array.mp hc))
  | map as ih =>
      refine composes_of_type fun hab hbc => ?_
      cases b <;> cases hab
      cases c <;> cases hbc
      rename_i bs cs
      rw [order, order, order]
      simp only [fieldsOrder_eq]
      exact .compareLex
        (fun f h g g' hf hg hg' => ((ih f h).1 hf.1 hg.1 hg'.1).then fun _ _ =>
          (ih f h).2 hf.2 hg.2 hg'.2)
        (List.forall₂_same.mp (equals_map.mp ha)) (List.forall₂_same.mp (equals_map.mp hb))
        (List.forall₂_same.mp (equals_map.mp hc))
  | float x =>
      refine composes_of_type fun hab hbc => ?_
      cases b <;> cases hab
      cases c <;> cases hbc
      exact composes_double (isNaN_of_equals ha) (isNaN_of_equals hb) (isNaN_of_equals hc)
  | nil =>
      refine composes_of_type fun hab hbc => ?_
      cases b <;> cases hab
      cases c <;> cases hbc
      exact fun _ _ => rfl
  | boolean x | integer x | datetime x =>
      refine composes_of_type fun hab hbc => ?_
      cases b <;> cases hab
      cases c <;> cases hbc
      exact composes compare x _ _
  | string s =>
      refine composes_of_type fun hab hbc => ?_
      cases b <;> cases hab
      cases c <;> cases hbc
      exact composes (fun s t : Bytes => compareOfLessAndEq s t) s _ _
  | blob x =>
      refine composes_of_type fun hab hbc => ?_
      cases b <;> cases hab
      cases c <;> cases hbc
      exact (composes compare x.size _ _).then fun _ _ =>
        composes (fun s t : Bytes => compareOfLessAndEq s t) x.data _ _

/-! ## Entries -/

mutual
/-- The entries of the maps in a value, at every depth and in keys too. -/
def entries : Dynamic → ℕ
  | array items => itemsEntries items
  | map fields => fieldsEntries fields
  | _ => 0
def itemsEntries : List Dynamic → ℕ
  | [] => 0
  | x :: xs => x.entries + itemsEntries xs
def fieldsEntries : List (Dynamic × Dynamic) → ℕ
  | [] => 0
  | (k, x) :: fs => 1 + k.entries + x.entries + fieldsEntries fs
end

@[simp] theorem entries_array (items : List Dynamic) : (array items).entries = itemsEntries items :=
  rfl

@[simp] theorem entries_map (fields : List (Dynamic × Dynamic)) :
    (map fields).entries = fieldsEntries fields := rfl

theorem fieldsEntries_eq_sum (fields : List (Dynamic × Dynamic)) :
    fieldsEntries fields = (fields.map fun f => 1 + f.1.entries + f.2.entries).sum := by
  induction fields with
  | nil => rfl
  | cons f fs ih => rw [fieldsEntries, ih, List.map_cons, List.sum_cons]

theorem fieldsEntries_perm (h : fs.Perm m) : fieldsEntries fs = fieldsEntries m := by
  rw [fieldsEntries_eq_sum, fieldsEntries_eq_sum]
  exact (h.map _).sum_eq

/-! ## Maps built by assignments -/

theorem lt_iff : a.lt b = true ↔ a.order b = .lt := beq_iff_eq

/-- Neither is less than the other. -/
theorem order_eq_iff : a.order b = .eq ↔ a.lt b = false ∧ b.lt a = false := by
  have hlt : b.order a = .lt ↔ a.order b = .gt := by
    rw [← order_swap a b]
    cases a.order b <;> decide
  rw [Bool.eq_false_iff, Bool.eq_false_iff, ne_eq, ne_eq, lt_iff, lt_iff, hlt]
  cases a.order b <;> decide

/-- With a key that is not there a field is added. -/
theorem setField_perm (h : ∀ f ∈ m, f.1.order k ≠ .eq) : (setField k x m).Perm ((k, x) :: m) := by
  induction m with
  | nil => exact .refl _
  | cons f m ih =>
      obtain ⟨hf, hm⟩ := List.forall_mem_cons.mp h
      rw [setField]
      split
      · exact ((ih hm).cons f).trans (.swap (k, x) f m)
      · split
        · exact .refl _
        · rename_i hlt hgt
          exact absurd (order_eq_iff.mpr ⟨Bool.eq_false_iff.mpr hlt, Bool.eq_false_iff.mpr hgt⟩) hf

theorem fieldsEntries_setField_le :
    fieldsEntries (setField k x m) ≤ 1 + k.entries + x.entries + fieldsEntries m := by
  induction m with
  | nil => exact Nat.le_refl _
  | cons f m ih =>
      rw [setField]
      split
      · simp only [fieldsEntries]
        omega
      · split
        · exact Nat.le_refl _
        · simp only [fieldsEntries]
          omega

/-- The fields are in the order of their keys. -/
def Sorted (fields : List (Dynamic × Dynamic)) : Prop :=
  fields.Pairwise fun f g => f.1.lt g.1 = true

/-- With a key that is there a field is lost. -/
theorem fieldsEntries_setField_lt (hsorted : Sorted m) (hm : ∀ f ∈ m, f.1.equals f.1 = true)
    (hk : k.equals k = true) (h : ∃ f ∈ m, f.1.order k = .eq) :
    fieldsEntries (setField k x m) < 1 + k.entries + x.entries + fieldsEntries m := by
  induction m with
  | nil =>
      obtain ⟨f, hf, -⟩ := h
      cases hf
  | cons f m ih =>
      obtain ⟨hfirst, hsorted⟩ := List.pairwise_cons.mp hsorted
      obtain ⟨hf, hm⟩ := List.forall_mem_cons.mp hm
      have hrest (hne : f.1.order k ≠ .eq) : ∃ g ∈ m, g.1.order k = .eq := by
        obtain ⟨g, hg, heq⟩ := h
        rcases List.mem_cons.mp hg with rfl | hg
        · exact absurd heq hne
        · exact ⟨g, hg, heq⟩
      rw [setField]
      split
      · rename_i hlt
        have hless := ih hsorted hm (hrest (by simp [lt_iff.mp hlt]))
        simp only [fieldsEntries]
        omega
      · rename_i hlt
        split
        · -- The key that is there comes after the first, and so does the new one.
          rename_i hgt
          obtain ⟨g, hg, heq⟩ := hrest fun heq => by
            rw [(order_eq_iff.mp heq).2] at hgt
            cases hgt
          have hcomposes := composes_order hf (hm g hg) hk
          have hless := hcomposes.lt_of_lt_of_eq (lt_iff.mp (hfirst g hg)) heq
          exact absurd (lt_iff.mpr hless) hlt
        · simp only [fieldsEntries]
          omega

theorem key_of_mem_setField {g : Dynamic × Dynamic} (hg : g ∈ setField k x m) :
    g.1 = k ∨ ∃ f ∈ m, g.1 = f.1 := by
  induction m with
  | nil => exact .inl (by rw [List.mem_singleton.mp hg])
  | cons f m ih =>
      rw [setField] at hg
      split at hg
      · rcases List.mem_cons.mp hg with rfl | hg
        · exact .inr ⟨_, List.mem_cons_self, rfl⟩
        · rcases ih hg with heq | ⟨f', hf', heq⟩
          · exact .inl heq
          · exact .inr ⟨f', List.mem_cons_of_mem _ hf', heq⟩
      · split at hg
        · rcases List.mem_cons.mp hg with rfl | hg
          · exact .inl rfl
          · exact .inr ⟨g, hg, rfl⟩
        · rcases List.mem_cons.mp hg with rfl | hg
          · exact .inr ⟨f, List.mem_cons_self, rfl⟩
          · exact .inr ⟨g, List.mem_cons_of_mem _ hg, rfl⟩

theorem Sorted.setField (hsorted : Sorted m) (hm : ∀ f ∈ m, f.1.equals f.1 = true)
    (hk : k.equals k = true) : Sorted (setField k x m) := by
  induction m with
  | nil => exact List.pairwise_singleton _ _
  | cons f m ih =>
      obtain ⟨hfirst, hrest⟩ := List.pairwise_cons.mp hsorted
      obtain ⟨hf, hm⟩ := List.forall_mem_cons.mp hm
      rw [Dynamic.setField]
      split
      · rename_i hlt
        refine List.pairwise_cons.mpr ⟨fun g hg => ?_, ih hrest hm⟩
        rcases key_of_mem_setField hg with heq | ⟨f', hf', heq⟩
        · rw [heq]
          exact hlt
        · rw [heq]
          exact hfirst f' hf'
      · split
        · rename_i hgt
          refine List.pairwise_cons.mpr ⟨fun g hg => ?_, hsorted⟩
          rcases List.mem_cons.mp hg with rfl | hg
          · exact hgt
          · exact lt_iff.mpr ((composes_order hk hf (hm g hg)).lt_trans (lt_iff.mp hgt)
              (lt_iff.mp (hfirst g hg)))
        · exact List.pairwise_cons.mpr ⟨hfirst, hrest⟩

/-- No key is there twice. -/
def DistinctKeys (fields : List (Dynamic × Dynamic)) : Prop :=
  fields.Pairwise fun f g => f.1.order g.1 ≠ .eq

theorem assignFields_concat (f : Dynamic × Dynamic) :
    assignFields (fs ++ [f]) = setField f.1 f.2 (assignFields fs) := by
  rw [assignFields, List.foldl_append]
  rfl

theorem assignFields_perm (h : DistinctKeys fs) : (assignFields fs).Perm fs := by
  induction fs using List.reverseRecOn with
  | nil => exact .refl _
  | append_singleton fs f ih =>
      obtain ⟨hfs, -, hf⟩ := List.pairwise_append.mp h
      rw [assignFields_concat]
      have hset : (setField f.1 f.2 (assignFields fs)).Perm (f :: assignFields fs) :=
        setField_perm fun g hg => hf g ((ih hfs).mem_iff.mp hg) f (List.mem_singleton_self f)
      exact hset.trans (((ih hfs).cons f).trans (List.perm_append_singleton f fs).symm)

theorem sorted_assignFields (h : ∀ f ∈ fs, f.1.equals f.1 = true) :
    Sorted (assignFields fs) ∧ ∀ g ∈ assignFields fs, g.1.equals g.1 = true := by
  induction fs using List.reverseRecOn with
  | nil => exact ⟨.nil, fun _ hg => nomatch hg⟩
  | append_singleton fs f ih =>
      obtain ⟨hsorted, hself⟩ := ih fun g hg => h g (List.mem_append_left _ hg)
      have hf := h f (List.mem_append_right _ (List.mem_singleton_self f))
      rw [assignFields_concat]
      refine ⟨hsorted.setField hself hf, fun g hg => ?_⟩
      rcases key_of_mem_setField hg with heq | ⟨f', hf', heq⟩
      · rw [heq]
        exact hf
      · rw [heq]
        exact hself f' hf'

/-- A map has as many entries as were assigned only if no two of them had the same key. -/
theorem fieldsEntries_assignFields (h : ∀ f ∈ fs, f.1.equals f.1 = true) :
    fieldsEntries (assignFields fs) ≤ fieldsEntries fs ∧
      (fieldsEntries (assignFields fs) = fieldsEntries fs → DistinctKeys fs) := by
  induction fs using List.reverseRecOn with
  | nil => exact ⟨Nat.le_refl _, fun _ => .nil⟩
  | append_singleton fs f ih =>
      have hfs : ∀ g ∈ fs, g.1.equals g.1 = true := fun g hg => h g (List.mem_append_left _ hg)
      have hf := h f (List.mem_append_right _ (List.mem_singleton_self f))
      obtain ⟨hle, hdistinct⟩ := ih hfs
      obtain ⟨hsorted, hself⟩ := sorted_assignFields hfs
      have hconcat : fieldsEntries (fs ++ [f]) = 1 + f.1.entries + f.2.entries + fieldsEntries fs :=
        fieldsEntries_perm (List.perm_append_singleton f fs)
      have hset : fieldsEntries (setField f.1 f.2 (assignFields fs)) ≤ _ :=
        fieldsEntries_setField_le
      rw [assignFields_concat, hconcat]
      refine ⟨by omega, fun heq => ?_⟩
      have hfs' := hdistinct (by omega)
      refine List.pairwise_append.mpr ⟨hfs', List.pairwise_singleton _ _, ?_⟩
      intro g hg f' hf' hsame
      rw [List.mem_singleton.mp hf'] at hsame
      have hless : fieldsEntries (setField f.1 f.2 (assignFields fs)) < _ :=
        fieldsEntries_setField_lt hsorted hself hf
          ⟨g, (assignFields_perm hfs').mem_iff.mpr hg, hsame⟩
      omega

end Dynamic
end Cradle
