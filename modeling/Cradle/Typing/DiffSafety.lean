import Cradle.Typing.DiffApply

/-!
# Diffs of any origin

An item of a diff is applied to what the items before it left.  Here the operations on
vectors are as the standard library has them, undefined beyond the end, and the checks are
those that the source makes before them.  Only the removal of an array item comes without
such a check.
-/

open Cradle.Dynamic

namespace Cradle

/-! ## Vectors -/

/-- `array[index]`. -/
def vectorAt (array : List Dynamic) (index : ℕ) : Except DiffFault Dynamic :=
  match array[index]? with
  | some item => .ok item
  | none => .error .outOfBounds

/-- `array[index] = value`. -/
def vectorAssign (array : List Dynamic) (index : ℕ) (value : Dynamic) :
    Except DiffFault (List Dynamic) :=
  if index < array.length then .ok (array.set index value) else .error .outOfBounds

/-- `array.insert(array.begin() + index, value)`. -/
def vectorInsert (array : List Dynamic) (index : ℕ) (value : Dynamic) :
    Except DiffFault (List Dynamic) :=
  if index ≤ array.length then .ok (array.insertIdx index value) else .error .outOfBounds

/-- `array.erase(array.begin() + index)`. -/
def vectorErase (array : List Dynamic) (index : ℕ) : Except DiffFault (List Dynamic) :=
  if index < array.length then .ok (array.eraseIdx index) else .error .outOfBounds

/-- `from_dynamic` of an index. -/
def indexFromDynamic (i : ℤ) : Except DiffFault ℕ :=
  if i < 0 then .error .badNumericCast else .ok i.toNat

/-! ## Items with their checks -/

/-- `apply_value_diff_item` with its checks and, apart from them, the operations on vectors. -/
def patchItem (op : ValueDiffOp) (newValue : Dynamic) :
    List Dynamic → Dynamic → Except DiffFault Dynamic
  | [], _ => .ok newValue
  | .string s :: path, .map fields =>
      if path.isEmpty then
        match op with
        | .insert | .update => .ok (.map (setField (.string s) newValue fields))
        | .delete => .ok (.map (eraseField fields (.string s)))
      else
        match findField fields (.string s) with
        | none => .error .invalidDiffPath
        | some field => do
            return .map (setField (.string s) (← patchItem op newValue path field) fields)
  | .integer i :: path, .array items => do
      let index ← indexFromDynamic i
      if path.isEmpty then
        match op with
        | .insert =>
            if items.length < index then .error .invalidDiffPath
            else return .array (← vectorInsert items index newValue)
        | .update =>
            if items.length ≤ index then .error .invalidDiffPath
            else return .array (← vectorAssign items index newValue)
        | .delete => return .array (← vectorErase items index)
      else if items.length ≤ index then .error .invalidDiffPath
      else do
        let item ← patchItem op newValue path (← vectorAt items index)
        return .array (← vectorAssign items index item)
  | _, _ => .error .invalidDiffPath

/-- `apply_value_diff`. -/
def patch (v : Dynamic) (diff : ValueDiff) : Except DiffFault Dynamic :=
  diff.foldlM (fun patched item => patchItem item.op (item.b.getD .nil) item.path patched) v

section
variable {op : ValueDiffOp} {newValue v : Dynamic} {path : List Dynamic}

theorem ok_bind {α β : Type} (a : α) (f : α → Except DiffFault β) :
    (Except.ok a >>= f) = f a := rfl

/-- An item for an array, given the same for what is below. -/
theorem patchItem_array_eq {i : ℤ} {items : List Dynamic}
    (h : ∀ item, patchItem op newValue path item = applyValueDiffItem op newValue path item) :
    patchItem op newValue (.integer i :: path) (.array items)
      = applyValueDiffItem op newValue (.integer i :: path) (.array items) := by
  simp only [patchItem, applyValueDiffItem, indexFromDynamic]
  by_cases hi : i < 0
  · rw [if_pos hi, if_pos hi]
    rfl
  rw [if_neg hi, if_neg hi, ok_bind]
  by_cases hlast : path.isEmpty = true
  · rw [if_pos hlast, if_pos hlast]
    cases op with
    | insert =>
        by_cases hlt : items.length < i.toNat
        · simp only [if_pos hlt]
        · simp only [if_neg hlt, vectorInsert, if_pos (Nat.not_lt.mp hlt)]
          rfl
    | update =>
        by_cases hle : items.length ≤ i.toNat
        · simp only [if_pos hle]
        · simp only [if_neg hle, vectorAssign, if_pos (Nat.not_le.mp hle)]
          rfl
    | delete =>
        by_cases hle : items.length ≤ i.toNat
        · simp only [vectorErase, if_pos hle, if_neg (Nat.not_lt.mpr hle)]
          rfl
        · simp only [vectorErase, if_neg hle, if_pos (Nat.not_le.mp hle)]
          rfl
  · rw [if_neg hlast, if_neg hlast]
    by_cases hle : items.length ≤ i.toNat
    · rw [if_pos hle, List.getElem?_eq_none hle]
    · have hlt : i.toNat < items.length := Nat.not_le.mp hle
      simp only [if_neg hle, vectorAt, vectorAssign, if_pos hlt, List.getElem?_eq_getElem hlt]
      rw [ok_bind, h]
      rfl

/-- Where there is a check, it is the one that the operation needs. -/
theorem patchItem_eq : patchItem op newValue path v = applyValueDiffItem op newValue path v := by
  induction path generalizing v with
  | nil => simp only [patchItem, applyValueDiffItem]
  | cons e path ih =>
      cases e with
      | string s =>
          cases v with
          | map fields =>
              cases op <;> cases hfield : findField fields (.string s) <;>
                simp only [patchItem, applyValueDiffItem, ih, hfield]
          | _ => simp only [patchItem, applyValueDiffItem]
      | integer i =>
          cases v with
          | array items =>
              exact patchItem_array_eq fun item => ih
          | _ => simp only [patchItem, applyValueDiffItem]
      | _ => simp only [patchItem, applyValueDiffItem]

theorem patch_eq (v : Dynamic) (diff : ValueDiff) : patch v diff = applyValueDiff v diff := by
  simp only [patch, applyValueDiff, patchItem_eq]

/-! ## When an item is out of bounds -/

/-- The path leads to an array and on to an index that the array does not have. -/
inductive MissesItem : List Dynamic → Dynamic → Prop
  | here {i : ℤ} {items : List Dynamic} : (items.length : ℤ) ≤ i →
      MissesItem [.integer i] (.array items)
  | field {s : Bytes} {fields : List (Dynamic × Dynamic)} {path : List Dynamic} {x : Dynamic} :
      findField fields (.string s) = some x → MissesItem path x →
      MissesItem (.string s :: path) (.map fields)
  | item {i : ℤ} {items path : List Dynamic} {x : Dynamic} : 0 ≤ i → items[i.toNat]? = some x →
      MissesItem path x → MissesItem (.integer i :: path) (.array items)

theorem not_missesItem_nil : ¬ MissesItem [] v := nofun

theorem bind_eq_outOfBounds {x : Except DiffFault Dynamic} {f : Dynamic → Dynamic} :
    (x >>= fun y => pure (f y)) = .error .outOfBounds ↔ x = .error .outOfBounds := by
  cases x <;> simp [bind, Except.bind, pure, Except.pure]

theorem missesItem_field {s : Bytes} {fields : List (Dynamic × Dynamic)} :
    MissesItem (.string s :: path) (.map fields) ↔
      ∃ x, findField fields (.string s) = some x ∧ MissesItem path x := by
  refine ⟨?_, fun ⟨x, hx, h⟩ => .field hx h⟩
  intro h
  cases h with
  | field hx h => exact ⟨_, hx, h⟩

theorem missesItem_item {i : ℤ} {items : List Dynamic} :
    MissesItem (.integer i :: path) (.array items) ↔
      0 ≤ i ∧ ((path = [] ∧ items.length ≤ i.toNat) ∨
        ∃ x, items[i.toNat]? = some x ∧ MissesItem path x) := by
  constructor
  · intro h
    cases h with
    | here h => exact ⟨by omega, .inl ⟨rfl, by omega⟩⟩
    | item hi hx h => exact ⟨hi, .inr ⟨_, hx, h⟩⟩
  · rintro ⟨hi, ⟨rfl, hle⟩ | ⟨x, hx, h⟩⟩
    · exact .here (by omega)
    · exact .item hi hx h

/-- An item of a diff is out of bounds exactly if it removes what is not there. -/
theorem applyValueDiffItem_eq_outOfBounds :
    applyValueDiffItem op newValue path v = .error .outOfBounds ↔
      op = .delete ∧ MissesItem path v := by
  induction path generalizing v with
  | nil => simp [applyValueDiffItem, not_missesItem_nil]
  | cons e path ih =>
      have hmismatch : (Except.error .invalidDiffPath : Except DiffFault Dynamic)
          ≠ .error .outOfBounds := by simp
      cases e with
      | string s =>
          cases v with
          | map fields =>
              simp only [applyValueDiffItem, missesItem_field]
              by_cases hlast : path = []
              · subst hlast
                cases op <;> simp [not_missesItem_nil]
              · rw [if_neg (by simpa using hlast)]
                cases findField fields (.string s) with
                | none => simp
                | some x =>
                    simp only [Option.some.injEq, exists_eq_left']
                    exact bind_eq_outOfBounds.trans ih
          | _ => simpa only [applyValueDiffItem, hmismatch, false_iff] using fun h => by cases h.2
      | integer i =>
          cases v with
          | array items =>
              simp only [applyValueDiffItem, missesItem_item]
              by_cases hi : i < 0
              · simp [hi, Int.not_le.mpr hi]
              have hnonneg : 0 ≤ i := Int.not_lt.mp hi
              rw [if_neg hi]
              by_cases hlast : path = []
              · subst hlast
                rw [List.isEmpty_nil, if_pos rfl]
                cases op with
                | insert =>
                    dsimp only
                    split <;> simp
                | update =>
                    dsimp only
                    split <;> simp
                | delete =>
                    dsimp only
                    split
                    case isTrue hle => simpa [hnonneg] using Or.inl hle
                    case isFalse hlt => simpa [not_missesItem_nil] using fun _ => hlt
              · rw [if_neg (by simpa using hlast)]
                cases items[i.toNat]? with
                | none => simp [hlast]
                | some x =>
                    simp only [hlast, hnonneg, false_and, false_or, true_and, Option.some.injEq,
                      exists_eq_left']
                    exact bind_eq_outOfBounds.trans ih
          | _ => simpa only [applyValueDiffItem, hmismatch, false_iff] using fun h => by cases h.2
      | _ => simpa only [applyValueDiffItem, hmismatch, false_iff] using fun h => by cases h.2

end

/-! ## When a diff is -/

/-- The item, applied to the value, removes no array item that is not there. -/
def RemovesWithin (item : ValueDiffItem) (v : Dynamic) : Prop :=
  item.op = .delete → ¬ MissesItem item.path v

/-- Every item of the diff removes only what the items before it left. -/
def RemovesWithinAlong (v : Dynamic) (diff : ValueDiff) : Prop :=
  ∀ done item rest patched, diff = done ++ item :: rest → applyValueDiff v done = .ok patched →
    RemovesWithin item patched

theorem removesWithinAlong_nil (v : Dynamic) : RemovesWithinAlong v [] := by
  intro done item rest patched h
  simp at h

theorem applyValueDiff_cons {v : Dynamic} {item : ValueDiffItem} {diff : ValueDiff} :
    applyValueDiff v (item :: diff) =
      applyValueDiffItem item.op (item.b.getD .nil) item.path v >>= fun v' =>
        applyValueDiff v' diff :=
  List.foldlM_cons

/-- The items after the first are applied to what it left. -/
theorem removesWithinAlong_cons {v : Dynamic} {item : ValueDiffItem} {diff : ValueDiff} :
    RemovesWithinAlong v (item :: diff) ↔ RemovesWithin item v ∧
      ∀ v', applyValueDiffItem item.op (item.b.getD .nil) item.path v = .ok v' →
        RemovesWithinAlong v' diff := by
  constructor
  · intro h
    refine ⟨h [] item diff v rfl rfl, fun v' hv' done item' rest patched hdiff hdone => ?_⟩
    refine h (item :: done) item' rest patched (by rw [hdiff]; rfl) ?_
    rw [applyValueDiff_cons, hv']
    exact hdone
  · rintro ⟨hitem, hrest⟩ done item' rest patched hdiff hdone
    cases done with
    | nil =>
        cases hdiff
        cases hdone
        exact hitem
    | cons first done =>
        cases hdiff
        rw [applyValueDiff_cons] at hdone
        obtain ⟨v', hv', hdone⟩ := Except.bind_eq_ok.mp hdone
        exact hrest v' hv' done item' rest patched rfl hdone

theorem applyValueDiff_eq_outOfBounds {v : Dynamic} {diff : ValueDiff} :
    applyValueDiff v diff = .error .outOfBounds ↔ ¬ RemovesWithinAlong v diff := by
  induction diff generalizing v with
  | nil => simpa [applyValueDiff, pure, Except.pure] using removesWithinAlong_nil v
  | cons item diff ih =>
      rw [applyValueDiff_cons, removesWithinAlong_cons, RemovesWithin]
      cases hstep : applyValueDiffItem item.op (item.b.getD .nil) item.path v with
      | error fault =>
          have hfault : (Except.error fault >>= fun v' => applyValueDiff v' diff)
              = Except.error fault := rfl
          rw [hfault, ← hstep, applyValueDiffItem_eq_outOfBounds]
          simp [hstep]
      | ok v' =>
          have hitem : ¬ (item.op = .delete ∧ MissesItem item.path v) := by
            rw [← applyValueDiffItem_eq_outOfBounds, hstep]
            nofun
          rw [ok_bind, ih]
          simp only [Except.ok.injEq, forall_eq', iff_true_intro (not_and.mp hitem), true_and]

/-- What the caller of `apply_value_diff` is to be prepared for. -/
def AppliesSafely (v : Dynamic) (diff : ValueDiff) : Prop :=
  (∃ r, patch v diff = .ok r) ∨ patch v diff = .error .invalidDiffPath ∨
    patch v diff = .error .badNumericCast

/-- Any diff is applied, or an exception is thrown, exactly if each item that removes an array
item finds it in what the items before it left. -/
theorem appliesSafely_iff (v : Dynamic) (diff : ValueDiff) :
    AppliesSafely v diff ↔ RemovesWithinAlong v diff := by
  rw [← not_iff_not, ← applyValueDiff_eq_outOfBounds, AppliesSafely, patch_eq]
  cases applyValueDiff v diff with
  | ok r => simp
  | error fault => cases fault <;> simp

/-- An item is deleted from an empty array. -/
theorem not_appliesSafely_empty :
    ¬ ∀ (v : Dynamic) (diff : ValueDiff), AppliesSafely v diff := by
  intro h
  have hresult : patch (.array []) [makeDeleteItem [.integer 0] .nil]
      = .error .outOfBounds := rfl
  have hsafe := h (.array []) [makeDeleteItem [.integer 0] .nil]
  rw [AppliesSafely, hresult] at hsafe
  simp at hsafe

end Cradle
