import Cradle.Typing.Coercion

/-!
# The coercion check agrees with the coercion

A value that requires no coercion is left as it is, and where the coercion returns, the check
does.  A value that was coerced requires no coercion any more, which is what sets the result
apart from a value that does require it.
-/

namespace Cradle

open Bounded

section
variable {p : Bytes → Option ℤ}
  {l : ApiNamedTypeReference → Except CoercionException ApiTypeInfo}
  {fuel : ℕ} {t k : ApiTypeInfo} {v r : Dynamic} {b : Bool}

/-! ## A value that requires no coercion is left as it is -/

theorem foldlM_of_check_false {fields : List (Bytes × ApiStructureFieldInfo ApiTypeInfo)}
    {m : List (Dynamic × Dynamic)}
    (ih : ∀ t v, (valueRequiresCoercion p l fuel t v).Returns false →
      (coerceValueImpl p l fuel t v).Returns v)
    (h : ∀ f ∈ fields, (checkDeclared p l fuel m f).Returns false) :
    (fields.foldlM (coerceDeclared p l fuel) m).Returns m := by
  induction fields with
  | nil => exact returns_pure.mpr rfl
  | cons f fields ihf =>
      obtain ⟨hf, hfs⟩ := List.forall_mem_cons.mp h
      rw [List.foldlM_cons, returns_bind]
      refine ⟨m, ?_, ihf hfs⟩
      rw [checkDeclared] at hf
      rw [coerceDeclared]
      cases hfind : Dynamic.findField m (.string f.1) with
      | none =>
          rw [hfind] at hf
          by_cases homit : f.2.omissible = some true
          · simp [homit]
          · simp [homit] at hf
      | some x =>
          rw [hfind] at hf
          simp only [returns_bind, returns_pure]
          exact ⟨x, ih _ _ hf, updateField_self hfind⟩

theorem coerce_of_check_false (hv : (valueRequiresCoercion p l fuel t v).Returns false) :
    (coerceValueImpl p l fuel t v).Returns v := by
  induction fuel generalizing t v with
  | zero => exact absurd hv not_returns_exhausted
  | succ fuel ih =>
      cases t with
      | array size t =>
          obtain ⟨items, rfl, h⟩ := check_array.mp hv
          have hitems := List.forall₂_same.mpr fun x hx => ih (anyM_returns_false.mp h x hx)
          exact coerce_array.mpr ⟨items, items, rfl, hitems, rfl⟩
      | datetime =>
          rcases check_datetime.mp hv with ⟨s, x, -, -, h⟩ | ⟨x, rfl, -⟩
          · cases h
          · exact coerce_datetime.mpr (.inr ⟨x, rfl, rfl⟩)
      | dynamic => exact returns_pure.mpr rfl
      | enum values =>
          obtain ⟨s, rfl, hs, -⟩ := check_enum.mp hv
          exact coerce_enum.mpr ⟨s, rfl, hs, rfl⟩
      | float =>
          rcases check_float.mp hv with ⟨i, -, h⟩ | ⟨x, rfl, -⟩
          · cases h
          · exact coerce_float.mpr (.inr ⟨x, rfl, rfl⟩)
      | integer =>
          rcases check_integer.mp hv with ⟨d, i, -, -, -, h⟩ | ⟨i, rfl, -⟩
          · cases h
          · exact coerce_integer.mpr (.inr ⟨i, rfl, rfl⟩)
      | map k t =>
          rcases check_map.mp hv with ⟨-, h⟩ | ⟨m, rfl, h⟩
          · cases h
          · have hfields : ∀ f ∈ m, (valueRequiresCoercion p l fuel k f.1).Returns false ∧
                (valueRequiresCoercion p l fuel t f.2).Returns false :=
              fun f hf => checkField_false.mp (anyM_returns_false.mp h f hf)
            refine coerce_map.mpr (.inr (.inr ⟨m, m, rfl, fun f hf => (hfields f hf).1, ?_, rfl⟩))
            exact List.forall₂_same.mpr fun f hf => ⟨rfl, ih (hfields f hf).2⟩
      | named ref =>
          obtain ⟨resolved, hl, h⟩ := check_named.mp hv
          exact coerce_named.mpr ⟨resolved, hl, ih h⟩
      | optional t =>
          rcases check_optional.mp hv with ⟨x, rfl, h⟩ | ⟨rfl, -⟩
          · exact coerce_optional.mpr (.inl ⟨x, x, rfl, ih h, rfl⟩)
          · exact coerce_optional.mpr (.inr ⟨rfl, rfl⟩)
      | «structure» fields =>
          obtain ⟨m, rfl, h⟩ := check_structure.mp hv
          have hfields := foldlM_of_check_false (fun _ _ => ih) (anyM_returns_false.mp h)
          exact coerce_structure.mpr ⟨m, m, rfl, hfields, rfl⟩
      | union members =>
          obtain ⟨m, x, rfl, hfind, h⟩ := check_union.mp hv
          exact coerce_union.mpr ⟨m, x, x, rfl, hfind, ih h, rfl⟩
      | reference t =>
          obtain ⟨he, -⟩ := (check_expects rfl).mp hv
          exact (coerce_expects rfl).mpr ⟨he, rfl⟩
      | blob | boolean | string | nil | function | record =>
          obtain ⟨he, -⟩ := (check_expects rfl).mp hv
          exact (coerce_expects rfl).mpr ⟨he, rfl⟩

/-! ## Where the coercion returns, the check does -/

theorem checkDeclared_returns {m m' : List (Dynamic × Dynamic)}
    {f : Bytes × ApiStructureFieldInfo ApiTypeInfo} (h : DeclaredCoerced p l fuel m m' f)
    (ih : ∀ v r, (coerceValueImpl p l fuel f.2.schema v).Returns r →
      ∃ b, (valueRequiresCoercion p l fuel f.2.schema v).Returns b) :
    ∃ b, (checkDeclared p l fuel m f).Returns b := by
  rcases h with ⟨x, y, hfind, hy, -⟩ | ⟨hfind, homit, -⟩
  · simpa only [checkDeclared, hfind] using ih x y hy
  · exact ⟨false, by simp [checkDeclared, hfind, homit]⟩

theorem check_returns_of_coerce (hl : ∀ ref t, l ref = .ok t → t.WellFormed) (ht : t.WellFormed)
    (hv : (coerceValueImpl p l fuel t v).Returns r) :
    ∃ b, (valueRequiresCoercion p l fuel t v).Returns b := by
  induction fuel generalizing t v r with
  | zero => exact absurd hv not_returns_exhausted
  | succ fuel ih =>
      cases ht with
      | @array size t ht =>
          obtain ⟨items, rs, rfl, hrs, -⟩ := coerce_array.mp hv
          have hitems : ∀ x ∈ items, ∃ b, (valueRequiresCoercion p l fuel t x).Returns b := by
            intro x hx
            obtain ⟨y, -, hy⟩ := hrs.exists_of_mem_left hx
            exact ih ht hy
          obtain ⟨b, hb⟩ := anyM_returns hitems
          exact ⟨b, check_array.mpr ⟨items, rfl, hb⟩⟩
      | datetime =>
          rcases coerce_datetime.mp hv with ⟨s, x, rfl, hs, -⟩ | ⟨x, rfl, -⟩
          · exact ⟨true, check_datetime.mpr (.inl ⟨s, x, rfl, hs, rfl⟩)⟩
          · exact ⟨false, check_datetime.mpr (.inr ⟨x, rfl, rfl⟩)⟩
      | dynamic => exact ⟨false, returns_pure.mpr rfl⟩
      | enum =>
          obtain ⟨s, rfl, hs, -⟩ := coerce_enum.mp hv
          exact ⟨false, check_enum.mpr ⟨s, rfl, hs, rfl⟩⟩
      | float =>
          rcases coerce_float.mp hv with ⟨i, rfl, -⟩ | ⟨x, rfl, -⟩
          · exact ⟨true, check_float.mpr (.inl ⟨i, rfl, rfl⟩)⟩
          · exact ⟨false, check_float.mpr (.inr ⟨x, rfl, rfl⟩)⟩
      | integer =>
          rcases coerce_integer.mp hv with ⟨d, i, rfl, hi, he, -⟩ | ⟨i, rfl, -⟩
          · exact ⟨true, check_integer.mpr (.inl ⟨d, i, rfl, hi, he, rfl⟩)⟩
          · exact ⟨false, check_integer.mpr (.inr ⟨i, rfl, rfl⟩)⟩
      | @map k t hk ht =>
          have hmap : ∀ m : List (Dynamic × Dynamic), v = .map m →
              (∀ f ∈ m, ∃ b, (checkField p l fuel k t f).Returns b) →
              ∃ b, (valueRequiresCoercion p l (fuel + 1) (.map k t) v).Returns b := by
            intro m hm hfields
            obtain ⟨b, hb⟩ := anyM_returns hfields
            exact ⟨b, check_map.mpr (.inr ⟨m, hm, hb⟩)⟩
          rcases coerce_map.mp hv with ⟨rfl, -⟩ | ⟨m, fs, hm, -, hfs, -⟩ | ⟨m, fs, hm, hkeys, hfs, -⟩
          · exact ⟨true, check_map.mpr (.inl ⟨rfl, rfl⟩)⟩
          · refine hmap m hm fun f hf => ?_
            obtain ⟨g, -, hkey, hvalue⟩ := hfs.exists_of_mem_left hf
            exact checkField_returns (ih hk hkey) (ih ht hvalue)
          · refine hmap m hm fun f hf => ?_
            obtain ⟨g, -, -, hvalue⟩ := hfs.exists_of_mem_left hf
            exact checkField_returns ⟨false, hkeys f hf⟩ (ih ht hvalue)
      | named =>
          obtain ⟨resolved, hresolved, h⟩ := coerce_named.mp hv
          obtain ⟨b, hb⟩ := ih (hl _ _ hresolved) h
          exact ⟨b, check_named.mpr ⟨resolved, hresolved, hb⟩⟩
      | @optional t ht =>
          rcases coerce_optional.mp hv with ⟨x, y, rfl, h, -⟩ | ⟨rfl, -⟩
          · obtain ⟨b, hb⟩ := ih ht h
            exact ⟨b, check_optional.mpr (.inl ⟨x, rfl, hb⟩)⟩
          · exact ⟨false, check_optional.mpr (.inr ⟨rfl, rfl⟩)⟩
      | @«structure» fields names hfields =>
          obtain ⟨m, m', rfl, h, -⟩ := coerce_structure.mp hv
          obtain ⟨b, hb⟩ := anyM_returns fun f hf =>
            checkDeclared_returns (foldlM_returns names h f hf) fun _ _ => ih (hfields f hf)
          exact ⟨b, check_structure.mpr ⟨m, rfl, hb⟩⟩
      | @union members names hmembers =>
          obtain ⟨m, x, y, rfl, hfind, h, -⟩ := coerce_union.mp hv
          obtain ⟨b, hb⟩ := ih (hmembers m (List.mem_of_find?_eq_some hfind)) h
          exact ⟨b, check_union.mpr ⟨m, x, rfl, hfind, hb⟩⟩
      | reference | blob | boolean | string | nil | function | record =>
          obtain ⟨he, -⟩ := (coerce_expects rfl).mp hv
          exact ⟨false, (check_expects rfl).mpr ⟨he, rfl⟩⟩

/-! ## What was coerced requires no coercion -/

theorem check_false_of_coerce (hl : ∀ ref t, l ref = .ok t → t.WellFormed) (ht : t.WellFormed)
    (hv : (coerceValueImpl p l fuel t v).Returns r) :
    (valueRequiresCoercion p l fuel t r).Returns false := by
  induction fuel generalizing t v r with
  | zero => exact absurd hv not_returns_exhausted
  | succ fuel ih =>
      cases ht with
      | @array size t ht =>
          obtain ⟨items, rs, -, hrs, rfl⟩ := coerce_array.mp hv
          refine check_array.mpr ⟨rs, rfl, anyM_returns_false.mpr fun y hy => ?_⟩
          obtain ⟨x, -, hx⟩ := hrs.exists_of_mem_right hy
          exact ih ht hx
      | datetime =>
          rcases coerce_datetime.mp hv with ⟨s, x, -, -, rfl⟩ | ⟨x, rfl, rfl⟩
          · exact check_datetime.mpr (.inr ⟨x, rfl, rfl⟩)
          · exact check_datetime.mpr (.inr ⟨x, rfl, rfl⟩)
      | dynamic => exact returns_pure.mpr rfl
      | enum =>
          obtain ⟨s, rfl, hs, rfl⟩ := coerce_enum.mp hv
          exact check_enum.mpr ⟨s, rfl, hs, rfl⟩
      | float =>
          rcases coerce_float.mp hv with ⟨i, -, rfl⟩ | ⟨x, rfl, rfl⟩
          · exact check_float.mpr (.inr ⟨_, rfl, rfl⟩)
          · exact check_float.mpr (.inr ⟨x, rfl, rfl⟩)
      | integer =>
          rcases coerce_integer.mp hv with ⟨d, i, -, -, -, rfl⟩ | ⟨i, rfl, rfl⟩
          · exact check_integer.mpr (.inr ⟨i, rfl, rfl⟩)
          · exact check_integer.mpr (.inr ⟨i, rfl, rfl⟩)
      | @map k t hk ht =>
          have hmap : ∀ m : List (Dynamic × Dynamic),
              (∀ f ∈ m, (valueRequiresCoercion p l fuel k f.1).Returns false ∧
                (valueRequiresCoercion p l fuel t f.2).Returns false) →
              (valueRequiresCoercion p l (fuel + 1) (.map k t) (.map m)).Returns false :=
            fun m hm => check_map.mpr (.inr ⟨m, rfl,
              anyM_returns_false.mpr fun f hf => checkField_false.mpr (hm f hf)⟩)
          rcases coerce_map.mp hv with ⟨-, rfl⟩ | ⟨m, fs, -, -, hfs, rfl⟩ |
            ⟨m, fs, -, hkeys, hfs, rfl⟩
          · exact hmap [] (by simp)
          · refine hmap _ (mem_assignFields
              (P := fun key => (valueRequiresCoercion p l fuel k key).Returns false)
              (Q := fun value => (valueRequiresCoercion p l fuel t value).Returns false)
              fun g hg => ?_)
            obtain ⟨f, -, hkey, hvalue⟩ := hfs.exists_of_mem_right hg
            exact ⟨ih hk hkey, ih ht hvalue⟩
          · refine hmap fs fun g hg => ?_
            obtain ⟨f, hf, hkey, hvalue⟩ := hfs.exists_of_mem_right hg
            exact ⟨hkey ▸ hkeys f hf, ih ht hvalue⟩
      | named =>
          obtain ⟨resolved, hresolved, h⟩ := coerce_named.mp hv
          exact check_named.mpr ⟨resolved, hresolved, ih (hl _ _ hresolved) h⟩
      | @optional t ht =>
          rcases coerce_optional.mp hv with ⟨x, y, -, h, rfl⟩ | ⟨rfl, rfl⟩
          · exact check_optional.mpr (.inl ⟨y, rfl, ih ht h⟩)
          · exact check_optional.mpr (.inr ⟨rfl, rfl⟩)
      | @«structure» fields names hfields =>
          obtain ⟨m, m', -, h, rfl⟩ := coerce_structure.mp hv
          refine check_structure.mpr ⟨m', rfl, anyM_returns_false.mpr fun f hf => ?_⟩
          rcases foldlM_returns names h f hf with ⟨x, y, -, hy, hfind⟩ | ⟨-, homit, hfind⟩
          · simpa only [checkDeclared, hfind] using ih (hfields f hf) hy
          · simp [checkDeclared, hfind, homit]
      | @union members names hmembers =>
          obtain ⟨m, x, y, -, hfind, h, rfl⟩ := coerce_union.mp hv
          have hmem := hmembers m (List.mem_of_find?_eq_some hfind)
          exact check_union.mpr ⟨m, y, rfl, hfind, ih hmem h⟩
      | reference | blob | boolean | string | nil | function | record =>
          obtain ⟨he, rfl⟩ := (coerce_expects rfl).mp hv
          exact (check_expects rfl).mpr ⟨he, rfl⟩

/-! ## Equal values are checked alike -/

theorem equals_type {v w : Dynamic} (h : v.equals w = true) : v.type = w.type := by
  cases v <;> cases w <;> first | rfl | simp [Dynamic.equals] at h

theorem equals_string_left {s : Bytes} {w : Dynamic} (h : (Dynamic.string s).equals w = true) :
    w = .string s := by
  cases w <;> simp_all [Dynamic.equals]

theorem equals_array_left {items : List Dynamic} {w : Dynamic}
    (h : (Dynamic.array items).equals w = true) :
    ∃ items', w = .array items' ∧ List.Forall₂ (fun a b => a.equals b = true) items items' := by
  cases w with
  | array items' => exact ⟨items', rfl, Dynamic.equals_array.mp h⟩
  | _ => simp [Dynamic.equals] at h

theorem equals_map_left {m : List (Dynamic × Dynamic)} {w : Dynamic}
    (h : (Dynamic.map m).equals w = true) :
    ∃ m', w = .map m' ∧
      List.Forall₂ (fun a b => a.1.equals b.1 = true ∧ a.2.equals b.2 = true) m m' := by
  cases w with
  | map m' => exact ⟨m', rfl, Dynamic.equals_map.mp h⟩
  | _ => simp [Dynamic.equals] at h

/-- A union of one field, compared. -/
theorem equals_union_left {s : Bytes} {x w : Dynamic}
    (h : (Dynamic.map [(.string s, x)]).equals w = true) :
    ∃ y, w = .map [(.string s, y)] ∧ x.equals y = true := by
  obtain ⟨m, rfl, hm⟩ := equals_map_left h
  cases hm with
  | cons hf hrest =>
      cases hrest
      rename_i g
      obtain ⟨k, y⟩ := g
      have hk : k = .string s := equals_string_left hf.1
      exact ⟨y, by rw [hk], hf.2⟩

theorem findField_equals {m m' : List (Dynamic × Dynamic)} (s : Bytes)
    (h : List.Forall₂ (fun a b => a.1.equals b.1 = true ∧ a.2.equals b.2 = true) m m') :
    Option.Rel (fun x y => x.equals y = true) (Dynamic.findField m (.string s))
      (Dynamic.findField m' (.string s)) := by
  induction h with
  | nil => exact .none
  | @cons f g m m' hfg _ ih =>
      obtain ⟨k, x⟩ := f
      obtain ⟨k', x'⟩ := g
      by_cases hk : k = .string s
      · subst hk
        have hk' : k' = .string s := equals_string_left hfg.1
        subst hk'
        rw [findField_cons_self, findField_cons_self]
        exact .some hfg.2
      · have hk' : k' ≠ .string s := by
          rintro rfl
          exact hk (equals_string_left (Dynamic.equals_symm hfg.1))
        rwa [findField_cons_of_ne hk, findField_cons_of_ne hk']

theorem truncate_of_magnitude {x : Double} (h : x.magnitude = 0) : x.truncate = 0 := by
  have hexp : x.exponent = 0 := by
    simp only [Double.magnitude, Double.exponent] at h ⊢
    omega
  simp [Double.truncate, hexp]

/-- Equal numbers have the same bits, but for the sign of a zero. -/
theorem truncate_of_equals {x y : Double} (h : x.equals y = true) : x.truncate = y.truncate := by
  have hrank : x.rank = y.rank := by
    simp only [Double.equals, Bool.and_eq_true, beq_iff_eq] at h
    exact h.2
  have hx := x.bits.toNat_lt
  have hy := y.bits.toNat_lt
  by_cases hbits : x.bits.toNat = y.bits.toNat
  · have heq : x = y := congrArg Double.mk (UInt64.toNat_inj.mp hbits)
    rw [heq]
  · have hzero : x.magnitude = 0 ∧ y.magnitude = 0 := by
      simp only [Double.rank, Double.magnitude] at hrank ⊢
      split at hrank <;> split at hrank <;> omega
    rw [truncate_of_magnitude hzero.1, truncate_of_magnitude hzero.2]

theorem numericCastInteger_of_equals {x y : Double} (h : x.equals y = true) :
    numericCastInteger x = numericCastInteger y := by
  have hnum : x.isNaN = false ∧ y.isNaN = false ∧ x.rank = y.rank := by
    simpa [Double.equals, and_assoc] using h
  simp only [numericCastInteger, Double.le, hnum.1, hnum.2.1, hnum.2.2, truncate_of_equals h]

theorem Double.equals_trans {x y z : Double} (hxy : x.equals y = true) (hyz : y.equals z = true) :
    x.equals z = true := by
  simp only [Double.equals, Bool.and_eq_true, beq_iff_eq] at hxy hyz ⊢
  exact ⟨⟨hxy.1.1, hyz.1.2⟩, hxy.2.trans hyz.2⟩

theorem check_of_equals {w : Dynamic} (hvw : v.equals w = true)
    (hv : (valueRequiresCoercion p l fuel t v).Returns b) :
    (valueRequiresCoercion p l fuel t w).Returns b := by
  induction fuel generalizing t v w b with
  | zero => exact absurd hv not_returns_exhausted
  | succ fuel ih =>
      cases t with
      | array size t =>
          obtain ⟨items, rfl, hb⟩ := check_array.mp hv
          obtain ⟨items', rfl, hitems⟩ := equals_array_left hvw
          refine check_array.mpr ⟨items', rfl, anyM_rel (hitems.imp fun x y hxy c hc => ?_) hb⟩
          exact ih hxy hc
      | datetime =>
          rcases check_datetime.mp hv with ⟨s, x, rfl, hs, hb⟩ | ⟨x, rfl, hb⟩
          · rw [equals_string_left hvw]
            exact check_datetime.mpr (.inl ⟨s, x, rfl, hs, hb⟩)
          · cases w with
            | datetime y => exact check_datetime.mpr (.inr ⟨y, rfl, hb⟩)
            | _ => simp [Dynamic.equals] at hvw
      | dynamic => exact hv
      | enum values =>
          obtain ⟨s, rfl, hs, hb⟩ := check_enum.mp hv
          rw [equals_string_left hvw]
          exact check_enum.mpr ⟨s, rfl, hs, hb⟩
      | float =>
          rcases check_float.mp hv with ⟨i, rfl, hb⟩ | ⟨x, rfl, hb⟩
          · cases w with
            | integer j => exact check_float.mpr (.inl ⟨j, rfl, hb⟩)
            | _ => simp [Dynamic.equals] at hvw
          · cases w with
            | float y => exact check_float.mpr (.inr ⟨y, rfl, hb⟩)
            | _ => simp [Dynamic.equals] at hvw
      | integer =>
          rcases check_integer.mp hv with ⟨d, i, rfl, hi, he, hb⟩ | ⟨i, rfl, hb⟩
          · cases w with
            | float y =>
                have hdy : d.equals y = true := hvw
                rw [numericCastInteger_of_equals hdy] at hi
                exact check_integer.mpr (.inl ⟨y, i, rfl, hi, Double.equals_trans he hdy, hb⟩)
            | _ => simp [Dynamic.equals] at hvw
          · cases w with
            | integer j => exact check_integer.mpr (.inr ⟨j, rfl, hb⟩)
            | _ => simp [Dynamic.equals] at hvw
      | map k t =>
          rcases check_map.mp hv with ⟨rfl, hb⟩ | ⟨m, rfl, hb⟩
          · obtain ⟨items', rfl, hitems⟩ := equals_array_left hvw
            cases hitems
            exact check_map.mpr (.inl ⟨rfl, hb⟩)
          · obtain ⟨m', rfl, hm⟩ := equals_map_left hvw
            refine check_map.mpr (.inr ⟨m', rfl, anyM_rel (hm.imp fun f g hfg c hc => ?_) hb⟩)
            obtain ⟨required, hk, hc⟩ := returns_bind.mp hc
            refine returns_bind.mpr ⟨required, ih hfg.1 hk, ?_⟩
            cases required with
            | true => exact hc
            | false => exact ih hfg.2 hc
      | named ref =>
          obtain ⟨resolved, hl, hb⟩ := check_named.mp hv
          exact check_named.mpr ⟨resolved, hl, ih hvw hb⟩
      | optional t =>
          rcases check_optional.mp hv with ⟨x, rfl, hb⟩ | ⟨rfl, hb⟩
          · obtain ⟨y, rfl, hxy⟩ := equals_union_left hvw
            exact check_optional.mpr (.inl ⟨y, rfl, ih hxy hb⟩)
          · obtain ⟨y, rfl, hxy⟩ := equals_union_left hvw
            cases y with
            | nil => exact check_optional.mpr (.inr ⟨rfl, hb⟩)
            | _ => simp [Dynamic.equals] at hxy
      | «structure» fields =>
          obtain ⟨m, rfl, hb⟩ := check_structure.mp hv
          obtain ⟨m', rfl, hm⟩ := equals_map_left hvw
          have hsame : List.Forall₂ (· = ·) fields fields := List.forall₂_same.mpr fun _ _ => rfl
          refine check_structure.mpr ⟨m', rfl, anyM_rel (hsame.imp ?_) hb⟩
          rintro f _ rfl c hc
          have hfind := findField_equals f.1 hm
          rw [checkDeclared] at hc ⊢
          cases hx : Dynamic.findField m (.string f.1) with
          | none =>
              rw [hx] at hfind hc
              cases hx' : Dynamic.findField m' (.string f.1) with
              | none => exact hc
              | some y => rw [hx'] at hfind; cases hfind
          | some x =>
              rw [hx] at hfind hc
              cases hx' : Dynamic.findField m' (.string f.1) with
              | none => rw [hx'] at hfind; cases hfind
              | some y =>
                  rw [hx'] at hfind
                  cases hfind with
                  | some hxy => exact ih hxy hc
      | union members =>
          obtain ⟨m, x, rfl, hfind, hb⟩ := check_union.mp hv
          obtain ⟨y, rfl, hxy⟩ := equals_union_left hvw
          exact check_union.mpr ⟨m, y, rfl, hfind, ih hxy hb⟩
      | reference t =>
          obtain ⟨he, hb⟩ := (check_expects rfl).mp hv
          exact (check_expects rfl).mpr ⟨he.trans (equals_type hvw), hb⟩
      | blob | boolean | string | nil | function | record =>
          obtain ⟨he, hb⟩ := (check_expects rfl).mp hv
          exact (check_expects rfl).mpr ⟨he.trans (equals_type hvw), hb⟩

/-! ## More fuel -/

theorem below_ite {α : Type} {c : Prop} [Decidable c] {x x' y y' : Coercing α}
    (hx : Below x x') (hy : Below y y') :
    Below (if c then x else y) (if c then x' else y') := by
  split
  · exact hx
  · exact hy

theorem check_below (n : ℕ) (t : ApiTypeInfo) (v : Dynamic) :
    Below (valueRequiresCoercion p l n t v) (valueRequiresCoercion p l (n + 1) t v) := by
  induction n generalizing t v with
  | zero => exact below_exhausted _
  | succ n ih =>
      cases t with
      | array size t =>
          exact (Below.refl _).bind fun items => anyM_below fun x => (ih t x.1).rethrow _
      | map k t =>
          have hfields : Below
              (castMap v >>= fun m => m.anyM fun f => within f.1 (checkField p l n k t f))
              (castMap v >>= fun m => m.anyM fun f => within f.1 (checkField p l (n + 1) k t f)) :=
            (Below.refl _).bind fun m => anyM_below fun f =>
              ((ih k f.1).bind fun _ => below_ite (Below.refl _) (ih t f.2)).rethrow _
          match v with
          | .array [] => exact Below.refl _
          | .array (_ :: _) => exact hfields
          | .nil | .boolean _ | .integer _ | .float _ | .string _ | .blob _ | .datetime _
          | .map _ => exact hfields
      | named ref => exact (Below.refl _).bind fun resolved => ih resolved v
      | optional t =>
          refine (Below.refl _).bind fun m => (Below.refl _).bind fun tag =>
            (Below.refl _).bind fun tag => below_ite ?_ (Below.refl _)
          exact ((Below.refl _).bind fun content => ih t content).rethrow _
      | «structure» fields =>
          refine (Below.refl _).bind fun m => anyM_below fun f => ?_
          dsimp only
          cases Dynamic.findField m (.string f.1) with
          | some x => exact (ih f.2.schema x).rethrow _
          | none => exact Below.refl _
      | union members =>
          refine (Below.refl _).bind fun m => (Below.refl _).bind fun tag =>
            (Below.refl _).bind fun tag => ?_
          cases members.find? fun member => tag = member.1 with
          | some member =>
              exact ((Below.refl _).bind fun content => ih member.2.schema content).rethrow _
          | none => exact Below.refl _
      | _ => exact Below.refl _

/-- What is done with the fields of a map. -/
def coerceFields (p : Bytes → Option ℤ)
    (l : ApiNamedTypeReference → Except CoercionException ApiTypeInfo) (fuel : ℕ)
    (k t : ApiTypeInfo) (m : List (Dynamic × Dynamic)) : Coercing Dynamic := do
  let keyCoercionRequired ← m.anyM fun f => valueRequiresCoercion p l fuel k f.1
  if keyCoercionRequired then do
    let coerced ← m.mapM fun f => within f.1 do
      let key ← coerceValueImpl p l fuel k f.1
      let value ← coerceValueImpl p l fuel t f.2
      return (key, value)
    return .map (Dynamic.assignFields coerced)
  else do
    let m ← m.mapM fun f => within f.1 do
      let value ← coerceValueImpl p l fuel t f.2
      return (f.1, value)
    return .map m

theorem coerce_below (n : ℕ) (t : ApiTypeInfo) (v : Dynamic) :
    Below (coerceValueImpl p l n t v) (coerceValueImpl p l (n + 1) t v) := by
  induction n generalizing t v with
  | zero => exact below_exhausted _
  | succ n ih =>
      cases t with
      | array size t =>
          refine (Below.refl _).bind fun items => ?_
          exact Below.bind (mapM_below fun x : Dynamic × ℕ => (ih t x.1).rethrow _)
            fun _ => Below.refl _
      | map k t =>
          have hfields : ∀ m, Below (coerceFields p l n k t m) (coerceFields p l (n + 1) k t m) := by
            intro m
            refine Below.bind (anyM_below fun f => check_below n k f.1) fun required =>
              below_ite (Below.bind (mapM_below fun f => ?_) fun _ => Below.refl _)
                (Below.bind (mapM_below fun f => ?_) fun _ => Below.refl _)
            · exact ((ih k f.1).bind fun _ => (ih t f.2).bind fun _ => Below.refl _).rethrow _
            · exact ((ih t f.2).bind fun _ => Below.refl _).rethrow _
          match v with
          | .array [] => exact Below.refl _
          | .array (_ :: _) => exact (Below.refl (castMap _)).bind hfields
          | .nil | .boolean _ | .integer _ | .float _ | .string _ | .blob _ | .datetime _
          | .map _ => exact (Below.refl (castMap _)).bind hfields
      | named ref => exact (Below.refl _).bind fun resolved => ih resolved v
      | optional t =>
          refine (Below.refl _).bind fun m => (Below.refl _).bind fun tag =>
            (Below.refl _).bind fun tag => below_ite ?_ (Below.refl _)
          exact ((Below.refl _).bind fun content =>
            (ih t content).bind fun _ => Below.refl _).rethrow _
      | «structure» fields =>
          refine (Below.refl _).bind fun m => Below.bind (foldlM_below fun m f => ?_)
            fun _ => Below.refl _
          dsimp only
          cases Dynamic.findField m (.string f.1) with
          | some x => exact ((ih f.2.schema x).bind fun _ => Below.refl _).rethrow _
          | none => exact Below.refl _
      | union members =>
          refine (Below.refl _).bind fun m => (Below.refl _).bind fun tag =>
            (Below.refl _).bind fun tag => ?_
          cases members.find? fun member => tag = member.1 with
          | some member =>
              exact ((Below.refl _).bind fun content =>
                (ih member.2.schema content).bind fun _ => Below.refl _).rethrow _
          | none => exact Below.refl _
      | _ => exact Below.refl _

/-! ## Both end -/

theorem ApiTypeInfo.NamesResolve.part {s : ApiTypeInfo} (h : t.NamesResolve l)
    (hs : ApiTypeInfo.Part l t s) : s.NamesResolve l :=
  fun _ hpath => h _ (hpath.head hs)

variable (p l) in
/-- The fuel is enough for the check and for the coercion. -/
def EnoughFuel (fuel : ℕ) (t : ApiTypeInfo) (v : Dynamic) : Prop :=
  (valueRequiresCoercion p l fuel t v).Ends ∧ (coerceValueImpl p l fuel t v).Ends

theorem ends_ite {α : Type} {c : Prop} [Decidable c] {x y : Coercing α} (hx : x.Ends)
    (hy : y.Ends) : (if c then x else y : Coercing α).Ends := by
  split
  · exact hx
  · exact hy

theorem EnoughFuel.mono {n m : ℕ} (hnm : n ≤ m) (h : EnoughFuel p l n t v) :
    EnoughFuel p l m t v := by
  have hcheck := run_of_le (fun n => check_below (p := p) (l := l) n t v) hnm
  have hcoerce := run_of_le (fun n => coerce_below (p := p) (l := l) n t v) hnm
  obtain ⟨a, ha⟩ := Option.isSome_iff_exists.mp h.1
  obtain ⟨b, hb⟩ := Option.isSome_iff_exists.mp h.2
  exact ⟨by rw [Ends, hcheck a ha]; rfl, by rw [Ends, hcoerce b hb]; rfl⟩

theorem ends_fields {m : List (Dynamic × Dynamic)}
    (h : ∀ f ∈ m, EnoughFuel p l fuel k f.1 ∧ EnoughFuel p l fuel t f.2) :
    (m.anyM fun f => within f.1 (checkField p l fuel k t f)).Ends ∧
      (coerceFields p l fuel k t m).Ends := by
  refine ⟨anyM_ends fun f hf => ends_within.mpr ?_, ?_⟩
  · refine (h f hf).1.1.bind fun required _ => ?_
    cases required with
    | true => exact ends_pure
    | false => exact (h f hf).2.1
  · refine (anyM_ends fun f hf => (h f hf).1.1).bind fun required _ => ?_
    cases required with
    | true =>
        refine (mapM_ends fun f hf => ends_within.mpr ?_).bind fun _ _ => ends_pure
        exact (h f hf).1.2.bind fun _ _ => (h f hf).2.2.bind fun _ _ => ends_pure
    | false =>
        refine (mapM_ends fun f hf => ends_within.mpr ?_).bind fun _ _ => ends_pure
        exact (h f hf).2.2.bind fun _ _ => ends_pure

variable (p l) in
/-- The fuel is enough for the keys and the values of the map that the value may be. -/
def EnoughForFields (v : Dynamic) (fuel : ℕ) (s : ApiTypeInfo) : Prop :=
  ∀ m, v = .map m → ∀ f ∈ m, EnoughFuel p l fuel s f.1 ∧ EnoughFuel p l fuel s f.2

theorem EnoughForFields.mono {n m : ℕ} {s : ApiTypeInfo} (hnm : n ≤ m)
    (h : EnoughForFields p l v n s) : EnoughForFields p l v m s :=
  fun fs hv f hf => ⟨(h fs hv f hf).1.mono hnm, (h fs hv f hf).2.mono hnm⟩

theorem exists_enoughForFields {s : ApiTypeInfo}
    (h : ∀ m, v = .map m → ∀ f ∈ m, (∃ n, EnoughFuel p l n s f.1) ∧ ∃ n, EnoughFuel p l n s f.2) :
    ∃ n, EnoughForFields p l v n s := by
  cases v with
  | map m =>
      have hfields : ∀ f ∈ m, ∃ n, EnoughFuel p l n s f.1 ∧ EnoughFuel p l n s f.2 := by
        intro f hf
        obtain ⟨⟨n, hn⟩, n', hn'⟩ := h m rfl f hf
        exact ⟨max n n', hn.mono (Nat.le_max_left n n'), hn'.mono (Nat.le_max_right n n')⟩
      obtain ⟨n, hn⟩ := exists_bound
        (fun n m f hnm hf => ⟨hf.1.mono hnm, hf.2.mono hnm⟩) hfields
      refine ⟨n, ?_⟩
      rintro _ ⟨⟩
      exact hn
  | _ => exact ⟨0, by simp [EnoughForFields]⟩

theorem exists_enoughForItems {s : ApiTypeInfo}
    (h : ∀ items, v = .array items → ∀ x ∈ items, ∃ n, EnoughFuel p l n s x) :
    ∃ n, ∀ items, v = .array items → ∀ x ∈ items, EnoughFuel p l n s x := by
  cases v with
  | array items =>
      obtain ⟨n, hn⟩ := exists_bound (fun n m x hnm hx => hx.mono hnm) (h items rfl)
      refine ⟨n, ?_⟩
      rintro _ ⟨⟩
      exact hn
  | _ => exact ⟨0, by simp⟩

/-- The loop over the declared fields ends, as no step changes what a later one finds. -/
theorem foldlM_ends {fields : List (Bytes × ApiStructureFieldInfo ApiTypeInfo)}
    {step : List (Dynamic × Dynamic) → Bytes × ApiStructureFieldInfo ApiTypeInfo →
      Coercing (List (Dynamic × Dynamic))} {m : List (Dynamic × Dynamic)}
    (names : fields.Pairwise fun f g => f.1 < g.1)
    (hstep : ∀ m f m', (step m f).Returns m' ↔ (coerceDeclared p l fuel m f).Returns m')
    (hends : ∀ f ∈ fields, ∀ m',
      Dynamic.findField m' (.string f.1) = Dynamic.findField m (.string f.1) → (step m' f).Ends) :
    (fields.foldlM step m).Ends := by
  induction fields generalizing m with
  | nil => exact ends_pure
  | cons f fields ih =>
      obtain ⟨hf, names⟩ := List.pairwise_cons.mp names
      obtain ⟨hendsf, hends⟩ := List.forall_mem_cons.mp hends
      rw [List.foldlM_cons]
      refine (hendsf m rfl).bind fun m₁ h₁ => ih names fun g hg m' hm' => hends g hg m' ?_
      have hne : g.1 ≠ f.1 := by
        intro heq
        have hlt := hf g hg
        rw [heq] at hlt
        exact List.lt_irrefl _ hlt
      rw [hm', coerceDeclared_frame ((hstep m f m₁).mp h₁) hne]

/-- One level of the recursion, where it ends for the parts of the value. -/
theorem enoughFuel_step (hnames : ∀ ref, t ≠ .named ref) (ht : t.WellFormed)
    (harray : ∀ items, v = .array items → ∀ x ∈ items, ∀ s, ApiTypeInfo.Part l t s →
      s.WellFormed → ∃ n, EnoughFuel p l n s x)
    (hmap : ∀ m, v = .map m → ∀ f ∈ m, ∀ s, ApiTypeInfo.Part l t s → s.WellFormed →
      (∃ n, EnoughFuel p l n s f.1) ∧ ∃ n, EnoughFuel p l n s f.2) :
    ∃ n, EnoughFuel p l n t v := by
  have hfields : ∀ s, ApiTypeInfo.Part l t s → s.WellFormed → ∃ n, EnoughForFields p l v n s :=
    fun s hs hwf => exists_enoughForFields fun m hm f hf => hmap m hm f hf s hs hwf
  cases ht with
  | @array size t ht =>
      obtain ⟨n, hn⟩ := exists_enoughForItems fun items hitems x hx =>
        harray items hitems x hx t .element ht
      refine ⟨n + 1, ?_, ?_⟩
      · refine ends_castArray.bind fun items hitems => anyM_ends fun x hx => ends_within.mpr ?_
        exact (hn items (returns_castArray.mp hitems) x.1 (List.fst_mem_of_mem_zipIdx hx)).1
      · refine ends_castArray.bind fun items hitems =>
          (mapM_ends fun x hx => ends_within.mpr ?_).bind fun _ _ => ends_pure
        exact (hn items (returns_castArray.mp hitems) x.1 (List.fst_mem_of_mem_zipIdx hx)).2
  | @map k t hk ht =>
      obtain ⟨n, hn⟩ := hfields k .key hk
      obtain ⟨n', hn'⟩ := hfields t .value ht
      have hkey := hn.mono (Nat.le_max_left n n')
      have hvalue := hn'.mono (Nat.le_max_right n n')
      have hends : (castMap v >>= fun m => m.anyM fun f =>
            within f.1 (checkField p l (max n n') k t f)).Ends ∧
          (castMap v >>= coerceFields p l (max n n') k t).Ends := by
        refine ⟨ends_castMap.bind fun m hm => ?_, ends_castMap.bind fun m hm => ?_⟩
        · exact (ends_fields fun f hf => ⟨(hkey m (returns_castMap.mp hm) f hf).1,
            (hvalue m (returns_castMap.mp hm) f hf).2⟩).1
        · exact (ends_fields fun f hf => ⟨(hkey m (returns_castMap.mp hm) f hf).1,
            (hvalue m (returns_castMap.mp hm) f hf).2⟩).2
      refine ⟨max n n' + 1, ?_⟩
      match v, hends with
      | .array [], _ => exact ⟨ends_pure, ends_pure⟩
      | .array (_ :: _), hends => exact hends
      | .nil, hends | .boolean _, hends | .integer _, hends | .float _, hends | .string _, hends
      | .blob _, hends | .datetime _, hends | .map _, hends => exact hends
  | named => exact absurd rfl (hnames _)
  | @optional t ht =>
      obtain ⟨n, hn⟩ := hfields t .content ht
      have hcontent : ∀ m x, (castMap v).Returns m → (getField m someTag).Returns x →
          EnoughFuel p l n t x := fun m x hm hx =>
        (hn m (returns_castMap.mp hm) _ (mem_of_findField (returns_getField.mp hx))).2
      refine ⟨n + 1, ?_, ?_⟩
      · refine ends_castMap.bind fun m hm => ends_getUnionTag.bind fun _ _ =>
          ends_castString.bind fun tag _ => ?_
        split
        · exact ends_within.mpr (ends_getField.bind fun x hx => (hcontent m x hm hx).1)
        · split
          · exact ends_getField.bind fun _ _ => ends_checked
          · exact ends_throwFault
      · refine ends_castMap.bind fun m hm => ends_getUnionTag.bind fun _ _ =>
          ends_castString.bind fun tag _ => ?_
        split
        · exact ends_within.mpr (ends_getField.bind fun x hx =>
            (hcontent m x hm hx).2.bind fun _ _ => ends_pure)
        · split
          · exact ends_getField.bind fun _ _ => ends_checked
          · exact ends_throwFault
  | @«structure» fields names hwf =>
      obtain ⟨n, hn⟩ : ∃ n, ∀ f ∈ fields, EnoughForFields p l v n f.2.schema :=
        exists_bound (fun n m f hnm hf => hf.mono hnm)
          fun f hf => hfields f.2.schema (.field hf) (hwf f hf)
      have hfield : ∀ m f x, (castMap v).Returns m → f ∈ fields →
          Dynamic.findField m (.string f.1) = some x → EnoughFuel p l n f.2.schema x :=
        fun m f x hm hf hx => (hn f hf m (returns_castMap.mp hm) _ (mem_of_findField hx)).2
      refine ⟨n + 1, ?_, ?_⟩
      · refine ends_castMap.bind fun m hm => anyM_ends fun f hf => ?_
        dsimp only
        cases hx : Dynamic.findField m (.string f.1) with
        | some x => exact ends_within.mpr (hfield m f x hm hf hx).1
        | none =>
            dsimp only
            split
            · exact ends_pure
            · exact ends_throwFault
      · refine ends_castMap.bind fun m hm => Ends.bind (foldlM_ends names
          (fun m f m' => returns_coerceDeclared) fun f hf m' hm' => ?_) fun _ _ => ends_pure
        dsimp only
        rw [hm']
        cases hx : Dynamic.findField m (.string f.1) with
        | some x =>
            exact ends_within.mpr ((hfield m f x hm hf hx).2.bind fun _ _ => ends_pure)
        | none =>
            dsimp only
            split
            · exact ends_pure
            · exact ends_throwFault
  | @union members names hwf =>
      obtain ⟨n, hn⟩ : ∃ n, ∀ m ∈ members, EnoughForFields p l v n m.2.schema :=
        exists_bound (fun n m f hnm hf => hf.mono hnm)
          fun m hm => hfields m.2.schema (.member hm) (hwf m hm)
      have hcontent : ∀ m x tag member, (castMap v).Returns m →
          members.find? (fun member => tag = member.1) = some member →
          (getField m member.1).Returns x → EnoughFuel p l n member.2.schema x :=
        fun m x tag member hm hfind hx =>
          (hn member (List.mem_of_find?_eq_some hfind) m (returns_castMap.mp hm) _
            (mem_of_findField (returns_getField.mp hx))).2
      refine ⟨n + 1, ?_, ?_⟩
      · refine ends_castMap.bind fun m hm => ends_getUnionTag.bind fun _ _ =>
          ends_castString.bind fun tag _ => ?_
        cases hfind : members.find? fun member => tag = member.1 with
        | some member =>
            exact ends_within.mpr (ends_getField.bind fun x hx =>
              (hcontent m x tag member hm hfind hx).1)
        | none => exact ends_throwFault
      · refine ends_castMap.bind fun m hm => ends_getUnionTag.bind fun _ _ =>
          ends_castString.bind fun tag _ => ?_
        cases hfind : members.find? fun member => tag = member.1 with
        | some member =>
            exact ends_within.mpr (ends_getField.bind fun x hx =>
              (hcontent m x tag member hm hfind hx).2.bind fun _ _ => ends_pure)
        | none => exact ends_throwFault
  | datetime =>
      refine ⟨1, ?_, ?_⟩
      · cases v with
        | string s =>
            rw [valueRequiresCoercion]
            exact ends_ite ends_pure ends_checked
        | _ => exact ends_checked
      · cases v with
        | string s =>
            rw [coerceValueImpl]
            cases hs : p s with
            | some x => simp
            | none => simp
        | _ => exact ends_checked
  | enum =>
      exact ⟨1, ends_checkType.bind fun _ _ => ends_castString.bind fun _ _ =>
        ends_ite ends_pure ends_throwFault, ends_checkType.bind fun _ _ =>
        ends_castString.bind fun _ _ => ends_ite ends_pure ends_throwFault⟩
  | float =>
      refine ⟨1, ends_ite ends_pure ends_checked, ?_⟩
      cases v with
      | integer i => exact ends_pure
      | _ => exact ends_checked
  | integer =>
      refine ⟨1, ?_, ?_⟩
      · cases v with
        | float d =>
            exact ends_numericCastInteger.bind fun _ _ => ends_ite ends_pure ends_checked
        | _ => exact ends_checked
      · cases v with
        | float d =>
            exact ends_numericCastInteger.bind fun _ _ => ends_ite ends_pure ends_checked
        | _ => exact ends_checked
  | dynamic => exact ⟨1, ends_pure, ends_pure⟩
  | reference | blob | boolean | string | nil | function | record =>
      exact ⟨1, ends_checked, ends_checked⟩

/-- A name takes one step more than what it stands for. -/
theorem exists_enoughFuel_named (hl : ∀ ref t, l ref = .ok t → t.WellFormed)
    (htypes : ∀ t : ApiTypeInfo, (∀ ref, t ≠ .named ref) → t.NamesResolve l → t.WellFormed →
      ∃ n, EnoughFuel p l n t v)
    (hnames : t.NamesResolve l) (ht : t.WellFormed) : ∃ n, EnoughFuel p l n t v := by
  have hresolves := hnames t .refl
  induction hresolves with
  | type hne => exact htypes _ hne hnames ht
  | @named ref t href _ ih =>
      obtain ⟨n, hn⟩ := ih (hnames.part (.resolved href)) (hl ref t href)
      refine ⟨n + 1, ?_, ?_⟩
      · refine (ends_ofExcept _).bind fun resolved h => ?_
        rw [returns_ofExcept, href] at h
        cases h
        exact hn.1
      · refine (ends_ofExcept _).bind fun resolved h => ?_
        rw [returns_ofExcept, href] at h
        cases h
        exact hn.2

theorem exists_enoughFuel (hl : ∀ ref t, l ref = .ok t → t.WellFormed) (ht : t.WellFormed)
    (hnames : t.NamesResolve l) (v : Dynamic) : ∃ n, EnoughFuel p l n t v := by
  induction v generalizing t with
  | array items ih =>
      refine exists_enoughFuel_named hl (fun t hne hnames ht => ?_) hnames ht
      refine enoughFuel_step hne ht ?_ (by simp)
      rintro _ ⟨⟩ x hx s hs hwf
      exact ih x hx hwf (hnames.part hs)
  | map m ih =>
      refine exists_enoughFuel_named hl (fun t hne hnames ht => ?_) hnames ht
      refine enoughFuel_step hne ht (by simp) ?_
      rintro _ ⟨⟩ f hf s hs hwf
      exact ⟨(ih f hf).1 hwf (hnames.part hs), (ih f hf).2 hwf (hnames.part hs)⟩
  | _ =>
      refine exists_enoughFuel_named hl (fun t hne hnames ht => ?_) hnames ht
      exact enoughFuel_step hne ht (by simp) (by simp)

/-! ## The agreement -/

/-- A value that requires coercion is not what the coercion returns, nor equal to it. -/
theorem ne_of_check_true (hl : ∀ ref t, l ref = .ok t → t.WellFormed) (ht : t.WellFormed)
    (hcheck : (valueRequiresCoercion p l fuel t v).Returns true)
    (hcoerce : (coerceValueImpl p l fuel t v).Returns r) : r ≠ v ∧ r.equals v = false := by
  have hr := check_false_of_coerce hl ht hcoerce
  refine ⟨?_, ?_⟩
  · rintro rfl
    exact Bool.false_ne_true (hr.unique hcheck)
  · by_contra hequal
    have hv := check_of_equals (Bool.of_not_eq_false hequal) hr
    exact Bool.false_ne_true (hv.unique hcheck)

/-- With enough fuel the check and the coercion both end, whatever more there is, and they
agree: a value that requires no coercion is returned as it is, one that does makes the
coercion throw or is replaced by a different value, and where the check throws, so does the
coercion. -/
theorem valueRequiresCoercion_agrees (p : Bytes → Option ℤ)
    (hl : ∀ ref t, l ref = .ok t → t.WellFormed) (ht : t.WellFormed)
    (hnames : t.NamesResolve l) (v : Dynamic) :
    ∃ n required coerced,
      (∀ fuel ≥ n, (valueRequiresCoercion p l fuel t v).run = some required ∧
        (coerceValue p l fuel t v).run = some coerced) ∧
      (required = .ok false → coerced = .ok v) ∧
      (required = .ok true → ∀ r, coerced = .ok r → r ≠ v ∧ r.equals v = false) ∧
      (∀ e, required = .error e → ∃ e', coerced = .error e') := by
  obtain ⟨n, hcheck, hcoerce⟩ := exists_enoughFuel (p := p) hl ht hnames v
  obtain ⟨required, hrequired⟩ := Option.isSome_iff_exists.mp hcheck
  obtain ⟨coerced, hcoerced⟩ := Option.isSome_iff_exists.mp hcoerce
  refine ⟨n, required, coerced, fun fuel hfuel => ⟨?_, ?_⟩, ?_, ?_, ?_⟩
  · exact run_of_le (fun n => check_below n t v) hfuel _ hrequired
  · exact run_of_le (fun n => coerce_below n t v) hfuel _ hcoerced
  · rintro rfl
    have hv := coerce_of_check_false hrequired
    rw [Returns, hcoerced] at hv
    exact Option.some.inj hv
  · rintro rfl r rfl
    exact ne_of_check_true hl ht hrequired hcoerced
  · rintro e rfl
    cases coerced with
    | error e' => exact ⟨e', rfl⟩
    | ok r =>
        obtain ⟨b, hb⟩ := check_returns_of_coerce hl ht hcoerced
        rw [Returns, hrequired] at hb
        cases hb

/-- Coercion is idempotent: what it returned is coerced to itself, and requires no coercion.
More fuel makes no difference. -/
theorem coerceValue_idempotent (hl : ∀ ref t, l ref = .ok t → t.WellFormed) (ht : t.WellFormed)
    {w : Dynamic} (hv : (coerceValue p l fuel t v).Returns w) :
    ∀ fuel' ≥ fuel, (coerceValue p l fuel' t w).Returns w ∧
      (valueRequiresCoercion p l fuel' t w).Returns false := by
  intro fuel' hfuel
  have hmore := run_of_le (fun n => coerce_below n t v) hfuel _ hv
  have hcheck := check_false_of_coerce hl ht hmore
  exact ⟨coerce_of_check_false hcheck, hcheck⟩

end

/-- A list of numbers as a structure that refers to itself by name. -/
def linkedList : ApiTypeInfo :=
  .structure [([110], ⟨.named ⟨[], [76]⟩, some true⟩), ([120], ⟨.float, none⟩)]

def lookUpLinkedList (_ : ApiNamedTypeReference) : Except CoercionException ApiTypeInfo :=
  .ok linkedList

theorem linkedList_wellFormed : linkedList.WellFormed := by
  refine .structure (by decide) ?_
  simp only [List.forall_mem_cons]
  exact ⟨.named, .float, by simp⟩

theorem linkedList_namesResolve : linkedList.NamesResolve lookUpLinkedList := by
  have hclosed : ∀ s, Relation.ReflTransGen (ApiTypeInfo.Part lookUpLinkedList) linkedList s →
      s = linkedList ∨ (∃ ref, s = .named ref) ∨ s = .float := by
    intro s hs
    induction hs with
    | refl => exact .inl rfl
    | tail _ hpart ih =>
        rcases ih with rfl | ⟨ref, rfl⟩ | rfl
        · cases hpart with
          | field hf =>
              simp only [List.mem_cons, List.not_mem_nil, or_false] at hf
              rcases hf with rfl | rfl
              · exact .inr (.inl ⟨_, rfl⟩)
              · exact .inr (.inr rfl)
        · cases hpart with
          | resolved h =>
              cases h
              exact .inl rfl
        · cases hpart
  intro s hs
  have hlist : linkedList.Resolves lookUpLinkedList := .type (by simp [linkedList])
  rcases hclosed s hs with rfl | ⟨ref, rfl⟩ | rfl
  · exact hlist
  · exact .named rfl hlist
  · exact .type (by simp)

theorem linkedList_agrees :
    let v : Dynamic := .map [(.string [110], .map [(.string [120], .integer 2)]),
      (.string [120], .float (.ofInteger 1))]
    ∃ n required coerced,
      (∀ fuel ≥ n, (valueRequiresCoercion (fun _ => none) lookUpLinkedList fuel linkedList v).run =
          some required ∧
        (coerceValue (fun _ => none) lookUpLinkedList fuel linkedList v).run = some coerced) ∧
      (required = .ok false → coerced = .ok v) ∧
      (required = .ok true → ∀ r, coerced = .ok r → r ≠ v ∧ r.equals v = false) ∧
      (∀ e, required = .error e → ∃ e', coerced = .error e') := by
  refine valueRequiresCoercion_agrees (fun _ => none) ?_ linkedList_wellFormed
    linkedList_namesResolve _
  rintro ref t ⟨⟩
  exact linkedList_wellFormed

theorem linkedList_idempotent :
    let v : Dynamic := .map [(.string [110], .map [(.string [120], .integer 2)]),
      (.string [120], .float (.ofInteger 1))]
    let w : Dynamic := .map [(.string [110], .map [(.string [120], .float (.ofInteger 2))]),
      (.string [120], .float (.ofInteger 1))]
    (coerceValue (fun _ => none) lookUpLinkedList 4 linkedList v).Returns w ∧
      ∀ fuel ≥ 4, (coerceValue (fun _ => none) lookUpLinkedList fuel linkedList w).Returns w ∧
        (valueRequiresCoercion (fun _ => none) lookUpLinkedList fuel linkedList w).Returns false := by
  intro v w
  have hv : (coerceValue (fun _ => none) lookUpLinkedList 4 linkedList v).Returns w := rfl
  refine ⟨hv, coerceValue_idempotent ?_ linkedList_wellFormed hv⟩
  rintro ref t ⟨⟩
  exact linkedList_wellFormed

end Cradle
