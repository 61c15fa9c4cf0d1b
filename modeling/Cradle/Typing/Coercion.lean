import Cradle.Typing.Schema

/-!
# What the check and the coercion return

For each constructor of the schemas, from which values the check and the coercion return, and
what; exceptions and their paths are left out.  In a structure the declared fields are
coerced one after the other, and none of them interferes with another.
-/

namespace Cradle

open Bounded

/-! ## Loops over the parts of a value -/

/-- The positions do not matter for what a loop returns. -/
theorem forall₂_zipIdx {α β : Type} {R : α → β → Prop} {xs : List α} {ys : List β} :
    List.Forall₂ (fun p y => R p.1 y) xs.zipIdx ys ↔ List.Forall₂ R xs ys := by
  rw [← List.forall₂_map_left_iff, List.zipIdx_map_fst]

theorem forall₂_congr_iff {α β : Type} {R S : α → β → Prop} {xs : List α} {ys : List β}
    (h : ∀ x y, R x y ↔ S x y) : List.Forall₂ R xs ys ↔ List.Forall₂ S xs ys :=
  ⟨List.Forall₂.imp fun x y => (h x y).mp, List.Forall₂.imp fun x y => (h x y).mpr⟩

theorem anyM_within {xs : List Dynamic} {f : Dynamic → Coercing Bool} {b : Bool} :
    (xs.zipIdx.anyM fun (x, (index : ℕ)) => within (.integer index) (f x)).Returns b ↔
      (xs.anyM f).Returns b := by
  have hitems : List.Forall₂ (fun x y => ∀ b, (f x).Returns b ↔ (f y).Returns b) xs xs :=
    List.forall₂_same.mpr fun _ _ _ => Iff.rfl
  refine anyM_returns_congr ((forall₂_zipIdx.mpr hitems).imp fun x y h b => ?_)
  exact returns_within.trans (h b)

theorem mapM_within {xs ys : List Dynamic} {f : Dynamic → Coercing Dynamic} :
    (xs.zipIdx.mapM fun (x, (index : ℕ)) => within (.integer index) (f x)).Returns ys ↔
      List.Forall₂ (fun x y => (f x).Returns y) xs ys := by
  simp only [mapM_returns, returns_within]
  exact forall₂_zipIdx (R := fun x y => (f x).Returns y)

section
variable {p : Bytes → Option ℤ}
  {l : ApiNamedTypeReference → Except CoercionException ApiTypeInfo}
  {fuel : ℕ} {t k : ApiTypeInfo} {v r : Dynamic} {b : Bool}

attribute [local simp] valueRequiresCoercion coerceValueImpl

/-! ## What the check returns -/

/-- The type that the schemas without parts of their own ask for. -/
def ApiTypeInfo.expects : ApiTypeInfo → Option ValueType
  | .blob => some .blob
  | .boolean => some .boolean
  | .reference _ => some .string
  | .string => some .string
  | .nil => some .nil
  | .function => some .nil
  | .record => some .nil
  | _ => none

theorem check_expects {e : ValueType} (h : t.expects = some e) :
    (valueRequiresCoercion p l (fuel + 1) t v).Returns b ↔ e = v.type ∧ false = b := by
  cases t <;> cases h <;> exact returns_checked

theorem check_array {size : Option ℤ} :
    (valueRequiresCoercion p l (fuel + 1) (.array size t) v).Returns b ↔
      ∃ items, v = .array items ∧ (items.anyM (valueRequiresCoercion p l fuel t)).Returns b := by
  simp only [valueRequiresCoercion, returns_bind, returns_castArray]
  exact exists_congr fun items => and_congr_right fun _ => anyM_within

theorem check_datetime :
    (valueRequiresCoercion p l (fuel + 1) .datetime v).Returns b ↔
      (∃ s x, v = .string s ∧ p s = some x ∧ true = b) ∨
      ∃ x, v = .datetime x ∧ false = b := by
  cases v with
  | string s => cases h : p s <;> simp [h]
  | _ => simp [Dynamic.type]

theorem check_enum {values : List Bytes} :
    (valueRequiresCoercion p l (fuel + 1) (.enum values) v).Returns b ↔
      ∃ s, v = .string s ∧ s ∈ values ∧ false = b := by
  cases v with
  | string s => by_cases h : s ∈ values <;> simp [returns_bind, Dynamic.type, h]
  | _ => simp [returns_bind, Dynamic.type]

theorem check_float :
    (valueRequiresCoercion p l (fuel + 1) .float v).Returns b ↔
      (∃ i, v = .integer i ∧ true = b) ∨ ∃ x, v = .float x ∧ false = b := by
  cases v <;> simp [Dynamic.type]

/-- What becomes of a float: it has to be an integer, and the same number. -/
theorem returns_whole {α : Type} {d : Double} {f : ℤ → α} {z y : α} :
    (do let i ← numericCastInteger d
        if (Double.ofInteger i).equals d then return f i
        else do
          checkType .integer .float
          return z).Returns y ↔
      ∃ i, (numericCastInteger d).Returns i ∧ (Double.ofInteger i).equals d = true ∧ f i = y := by
  rw [returns_bind]
  refine exists_congr fun i => and_congr_right fun _ => ?_
  by_cases he : (Double.ofInteger i).equals d = true
  · rw [if_pos he, returns_pure]
    exact (and_iff_right he).symm
  · simp [he]

theorem check_integer :
    (valueRequiresCoercion p l (fuel + 1) .integer v).Returns b ↔
      (∃ d i, v = .float d ∧ (numericCastInteger d).Returns i ∧
        (Double.ofInteger i).equals d = true ∧ true = b) ∨
      ∃ i, v = .integer i ∧ false = b := by
  cases v with
  | float d =>
      refine returns_whole.trans ⟨?_, ?_⟩
      · rintro ⟨i, hi, he, h⟩
        exact .inl ⟨d, i, rfl, hi, he, h⟩
      · rintro (⟨_, i, ⟨⟩, hi, he, h⟩ | ⟨i, h, -⟩)
        · exact ⟨i, hi, he, h⟩
        · cases h
  | _ => simp [Dynamic.type]

/-- The check of a field: the key first, then the value. -/
def checkField (p : Bytes → Option ℤ)
    (l : ApiNamedTypeReference → Except CoercionException ApiTypeInfo) (fuel : ℕ)
    (k t : ApiTypeInfo) (f : Dynamic × Dynamic) : Coercing Bool := do
  let required ← valueRequiresCoercion p l fuel k f.1
  if required then return true else valueRequiresCoercion p l fuel t f.2

theorem checkField_false {f : Dynamic × Dynamic} :
    (checkField p l fuel k t f).Returns false ↔
      (valueRequiresCoercion p l fuel k f.1).Returns false ∧
      (valueRequiresCoercion p l fuel t f.2).Returns false := by
  rw [checkField, returns_bind]
  refine ⟨?_, fun ⟨hk, ht⟩ => ⟨false, hk, ht⟩⟩
  rintro ⟨required, hk, h⟩
  cases required with
  | true => simp at h
  | false => exact ⟨hk, h⟩

theorem checkField_returns {f : Dynamic × Dynamic}
    (hk : ∃ b, (valueRequiresCoercion p l fuel k f.1).Returns b)
    (ht : ∃ b, (valueRequiresCoercion p l fuel t f.2).Returns b) :
    ∃ b, (checkField p l fuel k t f).Returns b := by
  obtain ⟨required, hk⟩ := hk
  obtain ⟨b, ht⟩ := ht
  cases required with
  | true => exact ⟨true, returns_bind.mpr ⟨true, hk, by simp⟩⟩
  | false => exact ⟨b, returns_bind.mpr ⟨false, hk, ht⟩⟩

theorem check_map :
    (valueRequiresCoercion p l (fuel + 1) (.map k t) v).Returns b ↔
      (v = .array [] ∧ true = b) ∨
      ∃ m, v = .map m ∧ (m.anyM (checkField p l fuel k t)).Returns b := by
  match v with
  | .array [] => simp
  | .array (x :: xs) => simp [returns_bind]
  | .map m =>
      simp only [valueRequiresCoercion, returns_bind, returns_castMap, Dynamic.map.injEq]
      have hsame : List.Forall₂ (· = ·) m m := List.forall₂_same.mpr fun _ _ => rfl
      have hloop : (m.anyM fun f => within f.1 (checkField p l fuel k t f)).Returns b ↔
          (m.anyM (checkField p l fuel k t)).Returns b := by
        refine anyM_returns_congr (hsame.imp ?_)
        rintro f _ rfl c
        exact returns_within
      refine ⟨?_, ?_⟩
      · rintro ⟨_, rfl, h⟩
        exact .inr ⟨m, rfl, hloop.mp h⟩
      · rintro (⟨h, -⟩ | ⟨_, rfl, h⟩)
        · cases h
        · exact ⟨m, rfl, hloop.mpr h⟩
  | .nil => simp [returns_bind]
  | .boolean _ => simp [returns_bind]
  | .integer _ => simp [returns_bind]
  | .float _ => simp [returns_bind]
  | .string _ => simp [returns_bind]
  | .blob _ => simp [returns_bind]
  | .datetime _ => simp [returns_bind]

theorem check_named {ref : ApiNamedTypeReference} :
    (valueRequiresCoercion p l (fuel + 1) (.named ref) v).Returns b ↔
      ∃ resolved, l ref = .ok resolved ∧
        (valueRequiresCoercion p l fuel resolved v).Returns b := by
  simp only [valueRequiresCoercion, returns_bind, returns_ofExcept]

/-- The value is a map with a single field, whose key is a string. -/
theorem returns_tag {α : Type} {f : List (Dynamic × Dynamic) → Bytes → Coercing α} {y : α} :
    (do let m ← castMap v
        let tag ← castString (← getUnionTag m)
        f m tag).Returns y ↔
      ∃ tag x, v = .map [(.string tag, x)] ∧ (f [(.string tag, x)] tag).Returns y := by
  simp only [returns_bind, returns_castMap, returns_getUnionTag, returns_castString]
  refine ⟨?_, ?_⟩
  · rintro ⟨_, rfl, _, ⟨x, rfl⟩, tag, rfl, h⟩
    exact ⟨tag, x, rfl, h⟩
  · rintro ⟨tag, x, rfl, h⟩
    exact ⟨_, rfl, _, ⟨x, rfl⟩, tag, rfl, h⟩

/-- The tag is `some`, or it is `none` and the content is nil. -/
theorem returns_someOrNone {α : Type} {f : Dynamic → List (Dynamic × Dynamic) → Coercing α}
    {z y : α} :
    (do let m ← castMap v
        let tag ← castString (← getUnionTag m)
        if tag = someTag then
          within (.string someTag) do
            let content ← getField m someTag
            f content m
        else if tag = noneTag then do
          let content ← getField m noneTag
          checkType .nil content.type
          return z
        else throwFault (.invalidOptionalType tag)).Returns y ↔
      (∃ x, v = .map [(.string someTag, x)] ∧ (f x [(.string someTag, x)]).Returns y) ∨
      (v = .map [(.string noneTag, .nil)] ∧ z = y) := by
  refine returns_tag.trans ⟨?_, ?_⟩
  · rintro ⟨tag, x, rfl, h⟩
    by_cases hsome : tag = someTag
    · subst hsome
      simp only [if_true, returns_within, returns_bind, returns_getField, findField_cons_self,
        Option.some.injEq] at h
      obtain ⟨_, rfl, h⟩ := h
      exact .inl ⟨x, rfl, h⟩
    · by_cases hnone : tag = noneTag
      · subst hnone
        simp only [if_neg hsome, if_true, returns_bind, returns_getField, findField_cons_self,
          returns_checkType, returns_pure, Option.some.injEq] at h
        obtain ⟨_, rfl, _, htype, h⟩ := h
        cases x <;> cases htype
        exact .inr ⟨rfl, h⟩
      · simp [if_neg hsome, if_neg hnone] at h
  · rintro (⟨x, rfl, h⟩ | ⟨rfl, h⟩)
    · refine ⟨someTag, x, rfl, ?_⟩
      simpa [returns_bind, findField_cons_self] using h
    · refine ⟨noneTag, .nil, rfl, ?_⟩
      have hne : noneTag ≠ someTag := by decide
      simpa [hne, returns_bind, findField_cons_self, Dynamic.type] using h

theorem check_optional :
    (valueRequiresCoercion p l (fuel + 1) (.optional t) v).Returns b ↔
      (∃ x, v = .map [(.string someTag, x)] ∧ (valueRequiresCoercion p l fuel t x).Returns b) ∨
      (v = .map [(.string noneTag, .nil)] ∧ false = b) :=
  returns_someOrNone

/-- The check of a declared field of a structure. -/
def checkDeclared (p : Bytes → Option ℤ)
    (l : ApiNamedTypeReference → Except CoercionException ApiTypeInfo) (fuel : ℕ)
    (m : List (Dynamic × Dynamic)) (f : Bytes × ApiStructureFieldInfo ApiTypeInfo) :
    Coercing Bool :=
  match Dynamic.findField m (.string f.1) with
  | some x => valueRequiresCoercion p l fuel f.2.schema x
  | none => if f.2.omissible = some true then return false else throwFault (.missingField f.1)

theorem check_structure {fields : List (Bytes × ApiStructureFieldInfo ApiTypeInfo)} :
    (valueRequiresCoercion p l (fuel + 1) (.structure fields) v).Returns b ↔
      ∃ m, v = .map m ∧ (fields.anyM (checkDeclared p l fuel m)).Returns b := by
  simp only [valueRequiresCoercion, returns_bind, returns_castMap]
  refine exists_congr fun m => and_congr_right fun _ => ?_
  have hsame : List.Forall₂ (· = ·) fields fields := List.forall₂_same.mpr fun _ _ => rfl
  refine anyM_returns_congr (hsame.imp ?_)
  rintro ⟨fieldName, fieldInfo⟩ _ rfl c
  cases h : Dynamic.findField m (.string fieldName) with
  | none => simp only [checkDeclared, h]
  | some x => simp only [checkDeclared, h, returns_within]

/-- The tag is the name of a member. -/
theorem returns_member {α : Type} {members : List (Bytes × ApiUnionMemberInfo ApiTypeInfo)}
    {f : Bytes → ApiUnionMemberInfo ApiTypeInfo → Dynamic → List (Dynamic × Dynamic) →
      Coercing α} {y : α} :
    (do let m ← castMap v
        let tag ← castString (← getUnionTag m)
        match members.find? fun member => tag = member.1 with
        | some (memberName, memberInfo) => within (.string memberName) do
            let content ← getField m memberName
            f memberName memberInfo content m
        | none => throwFault (.invalidEnumString tag) : Coercing α).Returns y ↔
      ∃ m x, v = .map [(.string m.1, x)] ∧ members.find? (fun member => m.1 = member.1) = some m ∧
        (f m.1 m.2 x [(.string m.1, x)]).Returns y := by
  refine returns_tag.trans ⟨?_, ?_⟩
  · rintro ⟨tag, x, rfl, h⟩
    cases hfind : members.find? fun member => tag = member.1 with
    | none => simp [hfind] at h
    | some m =>
        have htag : tag = m.1 := by simpa using List.find?_some hfind
        subst htag
        simp only [hfind, returns_within, returns_bind, returns_getField, findField_cons_self,
          Option.some.injEq] at h
        obtain ⟨_, rfl, h⟩ := h
        exact ⟨m, x, rfl, hfind, h⟩
  · rintro ⟨m, x, rfl, hfind, h⟩
    refine ⟨m.1, x, rfl, ?_⟩
    simpa [hfind, returns_bind, findField_cons_self] using h

theorem check_union {members : List (Bytes × ApiUnionMemberInfo ApiTypeInfo)} :
    (valueRequiresCoercion p l (fuel + 1) (.union members) v).Returns b ↔
      ∃ m x, v = .map [(.string m.1, x)] ∧ members.find? (fun member => m.1 = member.1) = some m ∧
        (valueRequiresCoercion p l fuel m.2.schema x).Returns b :=
  returns_member

/-! ## What the coercion returns -/

theorem coerce_expects {e : ValueType} (h : t.expects = some e) :
    (coerceValueImpl p l (fuel + 1) t v).Returns r ↔ e = v.type ∧ v = r := by
  cases t <;> cases h <;> exact returns_checked

theorem coerce_array {size : Option ℤ} :
    (coerceValueImpl p l (fuel + 1) (.array size t) v).Returns r ↔
      ∃ items rs, v = .array items ∧
        List.Forall₂ (fun x y => (coerceValueImpl p l fuel t x).Returns y) items rs ∧
        r = .array rs := by
  simp only [coerceValueImpl, returns_bind, returns_castArray, mapM_within, returns_pure]
  refine ⟨?_, ?_⟩
  · rintro ⟨items, rfl, rs, hrs, rfl⟩
    exact ⟨items, rs, rfl, hrs, rfl⟩
  · rintro ⟨items, rs, rfl, hrs, rfl⟩
    exact ⟨items, rfl, rs, hrs, rfl⟩

theorem coerce_datetime :
    (coerceValueImpl p l (fuel + 1) .datetime v).Returns r ↔
      (∃ s x, v = .string s ∧ p s = some x ∧ .datetime x = r) ∨
      ∃ x, v = .datetime x ∧ v = r := by
  cases v with
  | string s => cases h : p s <;> simp [h]
  | _ => simp [Dynamic.type]

theorem coerce_enum {values : List Bytes} :
    (coerceValueImpl p l (fuel + 1) (.enum values) v).Returns r ↔
      ∃ s, v = .string s ∧ s ∈ values ∧ v = r := by
  cases v with
  | string s => by_cases h : s ∈ values <;> simp [returns_bind, Dynamic.type, h]
  | _ => simp [returns_bind, Dynamic.type]

theorem coerce_float :
    (coerceValueImpl p l (fuel + 1) .float v).Returns r ↔
      (∃ i, v = .integer i ∧ .float (.ofInteger i) = r) ∨ ∃ x, v = .float x ∧ v = r := by
  cases v <;> simp [Dynamic.type]

theorem coerce_integer :
    (coerceValueImpl p l (fuel + 1) .integer v).Returns r ↔
      (∃ d i, v = .float d ∧ (numericCastInteger d).Returns i ∧
        (Double.ofInteger i).equals d = true ∧ .integer i = r) ∨
      ∃ i, v = .integer i ∧ v = r := by
  cases v with
  | float d =>
      refine returns_whole.trans ⟨?_, ?_⟩
      · rintro ⟨i, hi, he, h⟩
        exact .inl ⟨d, i, rfl, hi, he, h⟩
      · rintro (⟨_, i, ⟨⟩, hi, he, h⟩ | ⟨i, h, -⟩)
        · exact ⟨i, hi, he, h⟩
        · cases h
  | _ => simp [Dynamic.type]

/-- Either there is a new map of coerced keys and values, or no key requires coercion and the
values are coerced in place. -/
theorem coerce_map :
    (coerceValueImpl p l (fuel + 1) (.map k t) v).Returns r ↔
      (v = .array [] ∧ .map [] = r) ∨
      (∃ m fs, v = .map m ∧
        (m.anyM fun f => valueRequiresCoercion p l fuel k f.1).Returns true ∧
        List.Forall₂ (fun f g => (coerceValueImpl p l fuel k f.1).Returns g.1 ∧
          (coerceValueImpl p l fuel t f.2).Returns g.2) m fs ∧
        .map (Dynamic.assignFields fs) = r) ∨
      (∃ m fs, v = .map m ∧
        (∀ f ∈ m, (valueRequiresCoercion p l fuel k f.1).Returns false) ∧
        List.Forall₂ (fun f g => f.1 = g.1 ∧ (coerceValueImpl p l fuel t f.2).Returns g.2) m fs ∧
        .map fs = r) := by
  cases v with
  | array items => cases items <;> simp [returns_bind]
  | map m =>
      have hnew : ∀ fs, (m.mapM fun (key, value) => within key do
            let k ← coerceValueImpl p l fuel k key
            let v ← coerceValueImpl p l fuel t value
            return (k, v)).Returns fs ↔
          List.Forall₂ (fun f g => (coerceValueImpl p l fuel k f.1).Returns g.1 ∧
            (coerceValueImpl p l fuel t f.2).Returns g.2) m fs := by
        intro fs
        rw [mapM_returns]
        refine forall₂_congr_iff fun f g => ?_
        simp only [returns_within, returns_bind, returns_pure]
        refine ⟨?_, fun h => ⟨g.1, h.1, g.2, h.2, rfl⟩⟩
        rintro ⟨k', hk, v', hv, rfl⟩
        exact ⟨hk, hv⟩
      have hsame : ∀ fs, (m.mapM fun (key, value) => within key do
            let v ← coerceValueImpl p l fuel t value
            return (key, v)).Returns fs ↔
          List.Forall₂ (fun f g => f.1 = g.1 ∧ (coerceValueImpl p l fuel t f.2).Returns g.2)
            m fs := by
        intro fs
        rw [mapM_returns]
        refine forall₂_congr_iff fun f g => ?_
        simp only [returns_within, returns_bind, returns_pure]
        refine ⟨?_, fun h => ⟨g.2, h.2, by rw [h.1]⟩⟩
        rintro ⟨v', hv, rfl⟩
        exact ⟨rfl, hv⟩
      simp only [coerceValueImpl, returns_bind, returns_castMap, Dynamic.map.injEq]
      refine ⟨?_, ?_⟩
      · rintro ⟨_, rfl, required, hkeys, h⟩
        cases required with
        | true =>
            simp only [if_true, returns_bind, returns_pure, hnew] at h
            obtain ⟨fs, hfs, h⟩ := h
            exact .inr (.inl ⟨m, fs, rfl, hkeys, hfs, h⟩)
        | false =>
            simp only [Bool.false_eq_true, if_false, returns_bind, returns_pure, hsame] at h
            obtain ⟨fs, hfs, h⟩ := h
            exact .inr (.inr ⟨m, fs, rfl, anyM_returns_false.mp hkeys, hfs, h⟩)
      · rintro (⟨h, -⟩ | ⟨_, fs, rfl, hkeys, hfs, h⟩ | ⟨_, fs, rfl, hkeys, hfs, h⟩)
        · cases h
        · refine ⟨m, rfl, true, hkeys, ?_⟩
          simp only [if_true, returns_bind, returns_pure, hnew]
          exact ⟨fs, hfs, h⟩
        · refine ⟨m, rfl, false, anyM_returns_false.mpr hkeys, ?_⟩
          simp only [Bool.false_eq_true, if_false, returns_bind, returns_pure, hsame]
          exact ⟨fs, hfs, h⟩
  | _ => simp [returns_bind]

theorem coerce_named {ref : ApiNamedTypeReference} :
    (coerceValueImpl p l (fuel + 1) (.named ref) v).Returns r ↔
      ∃ resolved, l ref = .ok resolved ∧ (coerceValueImpl p l fuel resolved v).Returns r := by
  simp only [coerceValueImpl, returns_bind, returns_ofExcept]

theorem coerce_optional :
    (coerceValueImpl p l (fuel + 1) (.optional t) v).Returns r ↔
      (∃ x y, v = .map [(.string someTag, x)] ∧ (coerceValueImpl p l fuel t x).Returns y ∧
        .map [(.string someTag, y)] = r) ∨
      (v = .map [(.string noneTag, .nil)] ∧ v = r) := by
  refine returns_someOrNone.trans (or_congr_left (exists_congr fun x => ?_))
  simp only [returns_bind, returns_pure, updateField_cons_self, exists_and_left]

/-- The step of the loop over the declared fields of a structure. -/
def coerceDeclared (p : Bytes → Option ℤ)
    (l : ApiNamedTypeReference → Except CoercionException ApiTypeInfo) (fuel : ℕ)
    (m : List (Dynamic × Dynamic)) (f : Bytes × ApiStructureFieldInfo ApiTypeInfo) :
    Coercing (List (Dynamic × Dynamic)) :=
  match Dynamic.findField m (.string f.1) with
  | some x => do
      let y ← coerceValueImpl p l fuel f.2.schema x
      return updateField (.string f.1) y m
  | none => if f.2.omissible = some true then return m else throwFault (.missingField f.1)

theorem returns_coerceDeclared {m m' : List (Dynamic × Dynamic)}
    {f : Bytes × ApiStructureFieldInfo ApiTypeInfo} :
    (match Dynamic.findField m (.string f.1) with
      | some x => within (.string f.1) do
          let y ← coerceValueImpl p l fuel f.2.schema x
          return updateField (.string f.1) y m
      | none =>
          if f.2.omissible = some true then return m
          else throwFault (.missingField f.1)).Returns m' ↔
      (coerceDeclared p l fuel m f).Returns m' := by
  cases h : Dynamic.findField m (.string f.1) with
  | none => simp only [coerceDeclared, h]
  | some x => simp only [coerceDeclared, h, returns_within]

theorem coerce_structure {fields : List (Bytes × ApiStructureFieldInfo ApiTypeInfo)} :
    (coerceValueImpl p l (fuel + 1) (.structure fields) v).Returns r ↔
      ∃ m m', v = .map m ∧ (fields.foldlM (coerceDeclared p l fuel) m).Returns m' ∧
        .map m' = r := by
  simp only [coerceValueImpl, returns_bind, returns_castMap, returns_pure]
  refine ⟨?_, ?_⟩
  · rintro ⟨m, rfl, m', h, hr⟩
    exact ⟨m, m', rfl, (foldlM_returns_congr fun _ _ _ => returns_coerceDeclared).mp h, hr⟩
  · rintro ⟨m, m', rfl, h, hr⟩
    exact ⟨m, rfl, m', (foldlM_returns_congr fun _ _ _ => returns_coerceDeclared).mpr h, hr⟩

theorem coerce_union {members : List (Bytes × ApiUnionMemberInfo ApiTypeInfo)} :
    (coerceValueImpl p l (fuel + 1) (.union members) v).Returns r ↔
      ∃ m x y, v = .map [(.string m.1, x)] ∧
        members.find? (fun member => m.1 = member.1) = some m ∧
        (coerceValueImpl p l fuel m.2.schema x).Returns y ∧ .map [(.string m.1, y)] = r := by
  refine returns_member.trans (exists_congr fun m => exists_congr fun x => ?_)
  simp only [returns_bind, returns_pure, updateField_cons_self, exists_and_left]

/-! ## The fields of a new map -/

theorem mem_setField {key value : Dynamic} {m : List (Dynamic × Dynamic)} {P Q : Dynamic → Prop}
    (hkey : P key) (hvalue : Q value) (h : ∀ f ∈ m, P f.1 ∧ Q f.2) :
    ∀ f ∈ Dynamic.setField key value m, P f.1 ∧ Q f.2 := by
  induction m with
  | nil => simp [Dynamic.setField, hkey, hvalue]
  | cons f m ih =>
      obtain ⟨hf, hfs⟩ := List.forall_mem_cons.mp h
      rw [Dynamic.setField]
      split
      · exact List.forall_mem_cons.mpr ⟨hf, ih hfs⟩
      · split
        · exact List.forall_mem_cons.mpr ⟨⟨hkey, hvalue⟩, h⟩
        · exact List.forall_mem_cons.mpr ⟨⟨hf.1, hvalue⟩, hfs⟩

/-- The keys and values of the new map are among those assigned. -/
theorem mem_assignFields {fs : List (Dynamic × Dynamic)} {P Q : Dynamic → Prop}
    (h : ∀ f ∈ fs, P f.1 ∧ Q f.2) : ∀ f ∈ Dynamic.assignFields fs, P f.1 ∧ Q f.2 := by
  have hfold : ∀ m : List (Dynamic × Dynamic), (∀ f ∈ m, P f.1 ∧ Q f.2) →
      ∀ f ∈ fs.foldl (fun m f => Dynamic.setField f.1 f.2 m) m, P f.1 ∧ Q f.2 := by
    induction fs with
    | nil => exact fun m hm => hm
    | cons f fs ih =>
        obtain ⟨hf, hfs⟩ := List.forall_mem_cons.mp h
        exact fun m hm => ih hfs _ (mem_setField hf.1 hf.2 hm)
  exact hfold [] (by simp)

/-! ## The declared fields of a structure -/

theorem coerceDeclared_frame {m m' : List (Dynamic × Dynamic)}
    {f : Bytes × ApiStructureFieldInfo ApiTypeInfo}
    (h : (coerceDeclared p l fuel m f).Returns m') {s : Bytes} (hs : s ≠ f.1) :
    Dynamic.findField m' (.string s) = Dynamic.findField m (.string s) := by
  rw [coerceDeclared] at h
  split at h
  · obtain ⟨y, -, hm⟩ := returns_bind.mp h
    rw [← returns_pure.mp hm, findField_updateField_of_ne hs]
  · split at h
    · rw [returns_pure.mp h]
    · exact absurd h returns_throwFault

theorem foldlM_frame {fields : List (Bytes × ApiStructureFieldInfo ApiTypeInfo)}
    {m m' : List (Dynamic × Dynamic)} (h : (fields.foldlM (coerceDeclared p l fuel) m).Returns m')
    {s : Bytes} (hs : ∀ f ∈ fields, s ≠ f.1) :
    Dynamic.findField m' (.string s) = Dynamic.findField m (.string s) := by
  induction fields generalizing m with
  | nil => rw [returns_pure.mp h]
  | cons f fields ih =>
      obtain ⟨hf, hfs⟩ := List.forall_mem_cons.mp hs
      rw [List.foldlM_cons, returns_bind] at h
      obtain ⟨m₁, h₁, h⟩ := h
      rw [ih h hfs, coerceDeclared_frame h₁ hf]

/-- What the coercion of a structure does to a declared field. -/
def DeclaredCoerced (p : Bytes → Option ℤ)
    (l : ApiNamedTypeReference → Except CoercionException ApiTypeInfo) (fuel : ℕ)
    (m m' : List (Dynamic × Dynamic)) (f : Bytes × ApiStructureFieldInfo ApiTypeInfo) : Prop :=
  (∃ x y, Dynamic.findField m (.string f.1) = some x ∧
    (coerceValueImpl p l fuel f.2.schema x).Returns y ∧
    Dynamic.findField m' (.string f.1) = some y) ∨
  (Dynamic.findField m (.string f.1) = none ∧ f.2.omissible = some true ∧
    Dynamic.findField m' (.string f.1) = none)

theorem coerceDeclared_returns {m m' : List (Dynamic × Dynamic)}
    {f : Bytes × ApiStructureFieldInfo ApiTypeInfo}
    (h : (coerceDeclared p l fuel m f).Returns m') : DeclaredCoerced p l fuel m m' f := by
  rw [coerceDeclared] at h
  cases hfind : Dynamic.findField m (.string f.1) with
  | some x =>
      simp only [hfind, returns_bind, returns_pure] at h
      obtain ⟨y, hy, rfl⟩ := h
      exact .inl ⟨x, y, hfind, hy, findField_updateField_self hfind⟩
  | none =>
      by_cases homit : f.2.omissible = some true
      · simp only [hfind, homit, if_true, returns_pure] at h
        subst h
        exact .inr ⟨hfind, homit, hfind⟩
      · simp [hfind, homit] at h

/-- Each declared field is coerced once; the others do not interfere. -/
theorem foldlM_returns {fields : List (Bytes × ApiStructureFieldInfo ApiTypeInfo)}
    {m m' : List (Dynamic × Dynamic)} (names : fields.Pairwise fun f g => f.1 < g.1)
    (h : (fields.foldlM (coerceDeclared p l fuel) m).Returns m') :
    ∀ f ∈ fields, DeclaredCoerced p l fuel m m' f := by
  induction fields generalizing m with
  | nil => simp
  | cons f fields ih =>
      obtain ⟨hf, names⟩ := List.pairwise_cons.mp names
      have hne : ∀ g ∈ fields, f.1 ≠ g.1 := by
        intro g hg heq
        have hlt := hf g hg
        rw [heq] at hlt
        exact List.lt_irrefl _ hlt
      rw [List.foldlM_cons, returns_bind] at h
      obtain ⟨m₁, h₁, h⟩ := h
      refine List.forall_mem_cons.mpr ⟨?_, fun g hg => ?_⟩
      · have hdone := coerceDeclared_returns h₁
        rwa [DeclaredCoerced, ← foldlM_frame h hne] at hdone
      · have hrest := ih names h g hg
        rwa [DeclaredCoerced, coerceDeclared_frame h₁ (hne g hg).symm] at hrest

end

end Cradle
