import Cradle.Lib.Decoder
import Cradle.Typing.Diff

/-!
# Replaying a diff

The items of a diff computed at a path all start with that path.  Applying them to the
whole value is the same as applying them, without the path, to the value found there:
`apply_descend_field` and `apply_descend_item` do one step of this.
-/

open Cradle.Dynamic

namespace Cradle

/-! ## Fields in the order of their keys -/

namespace Dynamic

/-- The keys of the fields are strings after `s`. -/
def Before (s : Bytes) (fields : List (Dynamic × Dynamic)) : Prop :=
  ∀ f ∈ fields, ∃ t, f.1 = string t ∧ s < t

/-- The keys of the fields are strings before `s`. -/
def After (s : Bytes) (fields : List (Dynamic × Dynamic)) : Prop :=
  ∀ f ∈ fields, ∃ t, f.1 = string t ∧ t < s

theorem Before.of_lt {s t : Bytes} {fields : List (Dynamic × Dynamic)} (h : Before t fields)
    (hlt : s < t) : Before s fields := by
  intro f hf
  obtain ⟨u, hu, htu⟩ := h f hf
  exact ⟨u, hu, List.lt_trans hlt htu⟩

theorem Before.cons {s t : Bytes} {x : Dynamic} {fields : List (Dynamic × Dynamic)} (hlt : s < t)
    (h : Before s fields) : Before s ((string t, x) :: fields) := by
  intro f hf
  rcases List.mem_cons.mp hf with rfl | hf
  · exact ⟨t, rfl, hlt⟩
  · exact h f hf

theorem before_nil (s : Bytes) : Before s [] := fun _ hf => absurd hf List.not_mem_nil

variable {s : Bytes} {done rest : List (Dynamic × Dynamic)} {x y : Dynamic}

theorem not_lt_of_lt {s t : Bytes} (h : s < t) : ¬ t < s :=
  fun h' => List.lt_irrefl s (List.lt_trans h h')

theorem find_append (h : After s done) :
    findField (done ++ (string s, x) :: rest) (string s) = some x := by
  induction done with
  | nil => simp [findField, List.lt_irrefl]
  | cons f done ih =>
      obtain ⟨t, ht, hlt⟩ := h f List.mem_cons_self
      have hrest := ih fun g hg => h g (List.mem_cons_of_mem f hg)
      simp only [findField, List.cons_append] at hrest ⊢
      rw [List.find?_cons_of_neg (by simp [ht, hlt])]
      exact hrest

theorem set_append_self (h : After s done) :
    setField (string s) y (done ++ (string s, x) :: rest) = done ++ (string s, y) :: rest := by
  induction done with
  | nil => simp [setField, List.lt_irrefl]
  | cons f done ih =>
      obtain ⟨t, ht, hlt⟩ := h f List.mem_cons_self
      obtain ⟨k, z⟩ := f
      simp only at ht
      have hrest := ih fun g hg => h g (List.mem_cons_of_mem _ hg)
      simp [setField, ht, hlt, hrest]

theorem set_append (h : After s done) (hrest : Before s rest) :
    setField (string s) y (done ++ rest) = done ++ (string s, y) :: rest := by
  induction done with
  | nil =>
      cases rest with
      | nil => rfl
      | cons f rest =>
          obtain ⟨t, ht, hlt⟩ := hrest f List.mem_cons_self
          obtain ⟨k, z⟩ := f
          simp only at ht
          simp [setField, ht, hlt, not_lt_of_lt hlt]
  | cons f done ih =>
      obtain ⟨t, ht, hlt⟩ := h f List.mem_cons_self
      obtain ⟨k, z⟩ := f
      simp only at ht
      have hdone := ih fun g hg => h g (List.mem_cons_of_mem _ hg)
      simp [setField, ht, hlt, hdone]

theorem erase_append (h : After s done) (hrest : Before s rest) :
    eraseField (done ++ (string s, x) :: rest) (string s) = done ++ rest := by
  have hdone : done.filter (fun f => f.1.lt (string s) || (string s).lt f.1) = done := by
    refine List.filter_eq_self.mpr fun f hf => ?_
    obtain ⟨t, ht, hlt⟩ := h f hf
    simp [ht, hlt]
  have hkept : rest.filter (fun f => f.1.lt (string s) || (string s).lt f.1) = rest := by
    refine List.filter_eq_self.mpr fun f hf => ?_
    obtain ⟨t, ht, hlt⟩ := hrest f hf
    simp [ht, hlt]
  simp [eraseField, List.filter_append, hdone, hkept, List.lt_irrefl]

end Dynamic

/-! ## Items below a path -/

attribute [local simp] applyValueDiffItem

/-- Apply a diff without the first `n` elements of its paths. -/
def applyFrom (n : ℕ) (v : Dynamic) (diff : ValueDiff) : Except DiffFault Dynamic :=
  diff.foldlM (fun patched item =>
    applyValueDiffItem item.op (item.b.getD .nil) (item.path.drop n) patched) v

@[simp] theorem applyFrom_nil (n : ℕ) (v : Dynamic) : applyFrom n v [] = .ok v := rfl

theorem applyFrom_cons (n : ℕ) (v : Dynamic) (item : ValueDiffItem) (diff : ValueDiff) :
    applyFrom n v (item :: diff)
      = applyValueDiffItem item.op (item.b.getD .nil) (item.path.drop n) v
        >>= fun v' => applyFrom n v' diff :=
  List.foldlM_cons

theorem applyFrom_append (n : ℕ) (v : Dynamic) (d d' : ValueDiff) :
    applyFrom n v (d ++ d') = applyFrom n v d >>= fun v' => applyFrom n v' d' :=
  List.foldlM_append

/-- The items start with the path, and those at the path itself are updates. -/
def Under (path : List Dynamic) (diff : ValueDiff) : Prop :=
  ∀ item ∈ diff, ∃ rest, item.path = path ++ rest ∧ (rest = [] → item.op = .update)

theorem Under.append {path : List Dynamic} {d d' : ValueDiff} (h : Under path d)
    (h' : Under path d') : Under path (d ++ d') := by
  intro item hitem
  rcases List.mem_append.mp hitem with hd | hd
  · exact h item hd
  · exact h' item hd

theorem Under.of_extend {path : List Dynamic} {e : Dynamic} {d : ValueDiff}
    (h : Under (extendPath path e) d) : Under path d := by
  intro item hitem
  obtain ⟨rest, hpath, -⟩ := h item hitem
  exact ⟨e :: rest, by rw [hpath, extendPath, List.append_assoc]; rfl, by simp⟩

theorem drop_extendPath (path : List Dynamic) (e : Dynamic) :
    (extendPath path e).drop path.length = [e] := by
  rw [extendPath, List.drop_left]

/-- Below a path that was extended, what is left of the path of an item. -/
theorem drop_below {path tail : List Dynamic} {e : Dynamic} {item : ValueDiffItem}
    (h : item.path = extendPath path e ++ tail) :
    item.path.drop path.length = e :: tail ∧ item.path.drop (path.length + 1) = tail := by
  have hdrop : item.path.drop path.length = e :: tail := by
    rw [h, extendPath, List.append_assoc, List.drop_left]
    rfl
  refine ⟨hdrop, ?_⟩
  rw [← List.drop_drop, hdrop]
  rfl

section Descend
variable {path : List Dynamic} {diff : ValueDiff} {x : Dynamic}

/-- Items below a field act on the value of the field. -/
theorem apply_descend_field {s : Bytes} {done rest : List (Dynamic × Dynamic)}
    (h : Under (extendPath path (string s)) diff) (hdone : After s done) :
    applyFrom path.length (.map (done ++ (string s, x) :: rest)) diff
      = (applyFrom (path.length + 1) x diff).map
        fun y => .map (done ++ (string s, y) :: rest) := by
  induction diff generalizing x with
  | nil => rfl
  | cons item diff ih =>
      obtain ⟨tail, hpath, hupdate⟩ := h item List.mem_cons_self
      obtain ⟨hdrop, hdrop'⟩ := drop_below hpath
      have hrest := fun y => ih (x := y) fun it hit => h it (List.mem_cons_of_mem _ hit)
      rw [applyFrom_cons, applyFrom_cons, hdrop, hdrop']
      cases tail with
      | nil =>
          rw [hupdate rfl]
          simp only [applyValueDiffItem, List.isEmpty_nil, if_true, set_append_self hdone]
          exact hrest _
      | cons e tail =>
          simp only [applyValueDiffItem, List.isEmpty_cons, Bool.false_eq_true, if_false,
            find_append hdone]
          cases applyValueDiffItem item.op (item.b.getD nil) (e :: tail) x with
          | error f => rfl
          | ok y =>
              simp only [set_append_self hdone, bind_pure_comp]
              exact hrest y

/-- Items below an array index act on the item there. -/
theorem apply_descend_item {done rest : List Dynamic}
    (h : Under (extendPath path (integer done.length)) diff) :
    applyFrom path.length (.array (done ++ x :: rest)) diff
      = (applyFrom (path.length + 1) x diff).map fun y => .array (done ++ y :: rest) := by
  induction diff generalizing x with
  | nil => rfl
  | cons item diff ih =>
      obtain ⟨tail, hpath, hupdate⟩ := h item List.mem_cons_self
      obtain ⟨hdrop, hdrop'⟩ := drop_below hpath
      have hrest := fun y => ih (x := y) fun it hit => h it (List.mem_cons_of_mem _ hit)
      have hset : ∀ y, (done ++ x :: rest).set done.length y = done ++ y :: rest := by simp
      rw [applyFrom_cons, applyFrom_cons, hdrop, hdrop']
      cases tail with
      | nil =>
          rw [hupdate rfl]
          simp only [applyValueDiffItem, List.isEmpty_nil, if_true, Int.toNat_natCast, hset]
          rw [if_neg (by omega), if_neg (by simp)]
          exact hrest _
      | cons e tail =>
          have hget : (done ++ x :: rest)[done.length]? = some x := by simp
          simp only [applyValueDiffItem, List.isEmpty_cons, Bool.false_eq_true, if_false,
            Int.toNat_natCast, hget, hset]
          rw [if_neg (by omega)]
          cases applyValueDiffItem item.op (item.b.getD nil) (e :: tail) x with
          | error f => rfl
          | ok y => exact hrest y

end Descend

/-! ## Single steps -/

section Single
variable {path : List Dynamic} {x : Dynamic} {diff : ValueDiff}

theorem apply_insert_field {s : Bytes} {done rest : List (Dynamic × Dynamic)}
    (hdone : After s done) (hrest : Before s rest) :
    applyFrom path.length (.map (done ++ rest))
        (makeInsertItem (extendPath path (string s)) x :: diff)
      = applyFrom path.length (.map (done ++ (string s, x) :: rest)) diff := by
  rw [applyFrom_cons]
  simp only [makeInsertItem, drop_extendPath, applyValueDiffItem, List.isEmpty_nil, if_true,
    Option.getD_some, set_append hdone hrest]
  rfl

theorem apply_delete_field {s : Bytes} {done rest : List (Dynamic × Dynamic)}
    (hdone : After s done) (hrest : Before s rest) :
    applyFrom path.length (.map (done ++ (string s, x) :: rest))
        (makeDeleteItem (extendPath path (string s)) x :: diff)
      = applyFrom path.length (.map (done ++ rest)) diff := by
  rw [applyFrom_cons]
  simp only [makeDeleteItem, drop_extendPath, applyValueDiffItem, List.isEmpty_nil, if_true,
    erase_append hdone hrest]
  rfl

theorem apply_update (a b : Dynamic) :
    applyFrom path.length x [makeUpdateItem path a b] = .ok b := by
  rw [applyFrom_cons]
  simp only [makeUpdateItem, List.drop_length, applyValueDiffItem, Option.getD_some]
  rfl

theorem insertIdx_append_length (done rest : List Dynamic) (y : Dynamic) :
    (done ++ rest).insertIdx done.length y = done ++ y :: rest := by
  induction done with
  | nil => simp
  | cons x done ih => simp [ih]

/-- Inserting consecutive items. -/
theorem apply_insertItems (done items rest : List Dynamic) :
    applyFrom path.length (.array (done ++ rest)) (insertItems path done.length items)
      = .ok (.array (done ++ items ++ rest)) := by
  induction items generalizing done with
  | nil => simp [insertItems]
  | cons y items ih =>
      rw [insertItems, applyFrom_cons]
      simp only [makeInsertItem, drop_extendPath, applyValueDiffItem, List.isEmpty_nil, if_true,
        Option.getD_some, Int.toNat_natCast]
      rw [if_neg (by omega), if_neg (by simp)]
      have hins : (done ++ rest).insertIdx done.length y = done ++ [y] ++ rest := by
        rw [insertIdx_append_length]
        simp
      have hlen : done.length + 1 = (done ++ [y]).length := by simp
      rw [hins, hlen]
      have := ih (done ++ [y])
      simpa [bind, Except.bind] using this

/-- Deleting consecutive items, the last one first. -/
theorem apply_deleteItems (done items rest : List Dynamic) :
    applyFrom path.length (.array (done ++ items ++ rest)) (deleteItems path done.length items)
      = .ok (.array (done ++ rest)) := by
  induction items generalizing done with
  | nil => simp [deleteItems]
  | cons y items ih =>
      have hlast := ih (done ++ [y])
      rw [List.length_append, List.length_singleton] at hlast
      have hshape : done ++ y :: items ++ rest = done ++ [y] ++ items ++ rest := by simp
      rw [deleteItems, applyFrom_append, hshape, hlast]
      have hone : (done ++ [y] ++ rest).eraseIdx done.length = done ++ rest := by
        rw [List.append_assoc, List.eraseIdx_append_of_length_le (Nat.le_refl _)]
        simp
      simp only [bind, Except.bind, applyFrom_cons, makeDeleteItem, drop_extendPath,
        applyValueDiffItem, List.isEmpty_nil, if_true, Int.toNat_natCast, hone]
      rw [if_neg (by omega), if_neg (by simp)]
      rfl

end Single
end Cradle
