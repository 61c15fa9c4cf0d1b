import Cradle.Typing.CoercionCheck

/-!
# What coerced values conform to

A value conforms to a schema if each part of it is of the form that the schema asks for at its
place.  The coercion brings this about but for one thing: it never looks at the declared size
of an array, where the reader of a `std::array` checks it.
-/

namespace Cradle

open Bounded

section
variable (p : Bytes → Option ℤ)
  (l : ApiNamedTypeReference → Except CoercionException ApiTypeInfo)

/-! ## Parts of a value with their schemas -/

/-- A schema with a value goes on to a schema with a part of the value. -/
inductive Visits : ApiTypeInfo × Dynamic → ApiTypeInfo × Dynamic → Prop
  | item {size t items x} : x ∈ items → Visits (.array size t, .array items) (t, x)
  | key {k t m f} : f ∈ m → Visits (.map k t, .map m) (k, f.1)
  | value {k t m f} : f ∈ m → Visits (.map k t, .map m) (t, f.2)
  | content {t x} : Visits (.optional t, .map [(.string someTag, x)]) (t, x)
  | field {fields f m x} : f ∈ fields → Dynamic.findField m (.string f.1) = some x →
      Visits (.structure fields, .map m) (f.2.schema, x)
  | member {members tag m x} : members.find? (fun member => tag = member.1) = some m →
      Visits (.union members, .map [(.string tag, x)]) (m.2.schema, x)
  | resolved {ref t v} : l ref = .ok t → Visits (.named ref, v) (t, v)

/-- The condition holds of the value and of its parts at every depth. -/
def Everywhere (P : ApiTypeInfo → Dynamic → Prop) (t : ApiTypeInfo) (v : Dynamic) : Prop :=
  ∀ s w, Relation.ReflTransGen (Visits l) (t, v) (s, w) → P s w

/-- The value itself is as the schema has it, its parts aside. -/
def FormedAs (t : ApiTypeInfo) (v : Dynamic) : Prop :=
  match t with
  | .nil | .function | .record => v.type = .nil
  | .boolean => v.type = .boolean
  | .integer => v.type = .integer
  | .float => v.type = .float
  | .string | .reference _ => v.type = .string
  | .datetime => v.type = .datetime
  | .blob => v.type = .blob
  | .dynamic => True
  | .structure fields => ∃ m, v = .map m ∧
      ∀ f ∈ fields, Dynamic.findField m (.string f.1) = none → f.2.omissible = some true
  | .union members => ∃ tag x, v = .map [(.string tag, x)] ∧ ∃ m ∈ members, m.1 = tag
  | .enum values => ∃ s, v = .string s ∧ s ∈ values
  | .map _ _ => v.type = .map
  | .array size _ => ∃ items, v = .array items ∧ ∀ n ∈ size, (items.length : ℤ) = n
  | .optional _ => (∃ x, v = .map [(.string someTag, x)]) ∨ v = .map [(.string noneTag, .nil)]
  | .named ref => ∃ t, l ref = .ok t

/-- The value conforms to the schema at every depth. -/
def Conforms (t : ApiTypeInfo) (v : Dynamic) : Prop := Everywhere l (FormedAs l) t v

/-- Where the schema declares the size of an array, the array has that size. -/
def HasDeclaredSize (t : ApiTypeInfo) (v : Dynamic) : Prop :=
  ∀ n s items, t = .array (some n) s → v = .array items → (items.length : ℤ) = n

/-- No key of a map requires coercion. -/
def KeysAsTheyAre (t : ApiTypeInfo) (v : Dynamic) : Prop :=
  ∀ k s m, t = .map k s → v = .map m → ∀ f ∈ m, ∀ fuel,
    ¬ (valueRequiresCoercion p l fuel k f.1).Returns true

end

section
variable {p : Bytes → Option ℤ}
  {l : ApiNamedTypeReference → Except CoercionException ApiTypeInfo}
  {P : ApiTypeInfo → Dynamic → Prop} {fuel : ℕ} {t k : ApiTypeInfo} {v r : Dynamic}

theorem everywhere_iff :
    Everywhere l P t v ↔ P t v ∧ ∀ s w, Visits l (t, v) (s, w) → Everywhere l P s w := by
  refine ⟨fun h => ⟨h t v .refl, fun s w hsw s' w' hpath => h s' w' (.head hsw hpath)⟩, ?_⟩
  rintro ⟨hself, hparts⟩ s w hpath
  rcases hpath.cases_head with heq | ⟨⟨s', w'⟩, hstep, hrest⟩
  · cases heq
    exact hself
  · exact hparts s' w' hstep s w hrest

/-- Nothing is below a value that has no parts under its schema. -/
theorem everywhere_of_no_visit (h : ∀ s w, ¬ Visits l (t, v) (s, w)) (hself : P t v) :
    Everywhere l P t v :=
  everywhere_iff.mpr ⟨hself, fun s w hsw => absurd hsw (h s w)⟩

theorem everywhere_array {size : Option ℤ} {items : List Dynamic} :
    Everywhere l P (.array size t) (.array items) ↔
      P (.array size t) (.array items) ∧ ∀ x ∈ items, Everywhere l P t x := by
  rw [everywhere_iff]
  refine and_congr_right fun _ => ⟨fun h x hx => h t x (.item hx), fun h s w hsw => ?_⟩
  cases hsw with
  | item hx => exact h _ hx

theorem everywhere_map {m : List (Dynamic × Dynamic)} :
    Everywhere l P (.map k t) (.map m) ↔
      P (.map k t) (.map m) ∧ ∀ f ∈ m, Everywhere l P k f.1 ∧ Everywhere l P t f.2 := by
  rw [everywhere_iff]
  refine and_congr_right fun _ => ⟨fun h f hf => ⟨h k f.1 (.key hf), h t f.2 (.value hf)⟩,
    fun h s w hsw => ?_⟩
  cases hsw with
  | key hf => exact (h _ hf).1
  | value hf => exact (h _ hf).2

theorem everywhere_named {ref : ApiNamedTypeReference} (hl : l ref = .ok t) :
    Everywhere l P (.named ref) v ↔ P (.named ref) v ∧ Everywhere l P t v := by
  rw [everywhere_iff]
  refine and_congr_right fun _ => ⟨fun h => h t v (.resolved hl), fun h s w hsw => ?_⟩
  cases hsw with
  | resolved hl' =>
      rw [hl] at hl'
      cases hl'
      exact h

theorem everywhere_some {x : Dynamic} :
    Everywhere l P (.optional t) (.map [(.string someTag, x)]) ↔
      P (.optional t) (.map [(.string someTag, x)]) ∧ Everywhere l P t x := by
  rw [everywhere_iff]
  refine and_congr_right fun _ => ⟨fun h => h t x .content, fun h s w hsw => ?_⟩
  cases hsw with
  | content => exact h

theorem everywhere_structure {fields : List (Bytes × ApiStructureFieldInfo ApiTypeInfo)}
    {m : List (Dynamic × Dynamic)} :
    Everywhere l P (.structure fields) (.map m) ↔
      P (.structure fields) (.map m) ∧ ∀ f ∈ fields, ∀ x,
        Dynamic.findField m (.string f.1) = some x → Everywhere l P f.2.schema x := by
  rw [everywhere_iff]
  refine and_congr_right fun _ => ⟨fun h f hf x hx => h _ x (.field hf hx), fun h s w hsw => ?_⟩
  cases hsw with
  | field hf hx => exact h _ hf _ hx

theorem everywhere_union {members : List (Bytes × ApiUnionMemberInfo ApiTypeInfo)} {tag : Bytes}
    {m : Bytes × ApiUnionMemberInfo ApiTypeInfo} {x : Dynamic}
    (hm : members.find? (fun member => tag = member.1) = some m) :
    Everywhere l P (.union members) (.map [(.string tag, x)]) ↔
      P (.union members) (.map [(.string tag, x)]) ∧ Everywhere l P m.2.schema x := by
  rw [everywhere_iff]
  refine and_congr_right fun _ => ⟨fun h => h _ x (.member hm), fun h s w hsw => ?_⟩
  cases hsw with
  | member hm' =>
      rw [hm] at hm'
      cases hm'
      exact h

/-! ## Coerced values -/

theorem formedAs_expects {e : ValueType} (h : t.expects = some e) :
    FormedAs l t v ↔ e = v.type := by
  cases t <;> cases h <;> exact eq_comm

theorem not_visits_expects {e : ValueType} (h : t.expects = some e) (s : ApiTypeInfo)
    (w : Dynamic) : ¬ Visits l (t, v) (s, w) := by
  rintro ⟨⟩ <;> cases h

theorem not_visits_none (s : ApiTypeInfo) (w : Dynamic) :
    ¬ Visits l (.optional t, .map [(.string noneTag, .nil)]) (s, w) := by
  generalize hv : Dynamic.map [(.string noneTag, .nil)] = v
  rintro ⟨⟩
  simp [noneTag, someTag] at hv

/-- Between a value and what became of it: the result conforms if the arrays of the value have
their sizes, and only if so where all keys were kept. -/
def SizesDecide (p : Bytes → Option ℤ)
    (l : ApiNamedTypeReference → Except CoercionException ApiTypeInfo) (t : ApiTypeInfo)
    (v r : Dynamic) : Prop :=
  (Everywhere l HasDeclaredSize t v → Conforms l t r) ∧
  (Everywhere l (KeysAsTheyAre p l) t v → Conforms l t r → Everywhere l HasDeclaredSize t v)

/-- A value without parts. -/
theorem sizesDecide_of_no_visit (hv : ∀ s w, ¬ Visits l (t, v) (s, w))
    (hr : ∀ s w, ¬ Visits l (t, r) (s, w)) (hformed : FormedAs l t r)
    (hsize : HasDeclaredSize t v) : SizesDecide p l t v r :=
  ⟨fun _ => everywhere_of_no_visit hr hformed, fun _ _ => everywhere_of_no_visit hv hsize⟩

theorem sizesDecide_of_coerce (hl : ∀ ref t, l ref = .ok t → t.WellFormed) (ht : t.WellFormed)
    (hv : (coerceValueImpl p l fuel t v).Returns r) : SizesDecide p l t v r := by
  induction fuel generalizing t v r with
  | zero => exact absurd hv not_returns_exhausted
  | succ fuel ih =>
      cases ht with
      | @array size t ht =>
          obtain ⟨items, rs, rfl, hrs, rfl⟩ := coerce_array.mp hv
          have hlen := hrs.length_eq
          refine ⟨fun h => ?_, fun hkeys h => ?_⟩
          · obtain ⟨hsize, hitems⟩ := everywhere_array.mp h
            refine everywhere_array.mpr ⟨⟨rs, rfl, ?_⟩, fun y hy => ?_⟩
            · rintro n ⟨⟩
              rw [← hlen]
              exact hsize n t items rfl rfl
            · obtain ⟨x, hx, hxy⟩ := hrs.exists_of_mem_right hy
              exact (ih ht hxy).1 (hitems x hx)
          · obtain ⟨⟨_, ⟨⟩, hsize⟩, hitems⟩ := everywhere_array.mp h
            refine everywhere_array.mpr ⟨?_, fun x hx => ?_⟩
            · rintro n _ _ ⟨⟩ ⟨⟩
              rw [hlen]
              exact hsize n rfl
            · obtain ⟨y, hy, hxy⟩ := hrs.exists_of_mem_left hx
              exact (ih ht hxy).2 ((everywhere_array.mp hkeys).2 x hx) (hitems y hy)
      | datetime =>
          rcases coerce_datetime.mp hv with ⟨s, x, rfl, -, rfl⟩ | ⟨x, rfl, rfl⟩
          · exact sizesDecide_of_no_visit nofun nofun rfl nofun
          · exact sizesDecide_of_no_visit nofun nofun rfl nofun
      | dynamic => exact sizesDecide_of_no_visit nofun nofun trivial nofun
      | enum =>
          obtain ⟨s, rfl, hs, rfl⟩ := coerce_enum.mp hv
          exact sizesDecide_of_no_visit nofun nofun ⟨s, rfl, hs⟩ nofun
      | float =>
          rcases coerce_float.mp hv with ⟨i, rfl, rfl⟩ | ⟨x, rfl, rfl⟩
          · exact sizesDecide_of_no_visit nofun nofun rfl nofun
          · exact sizesDecide_of_no_visit nofun nofun rfl nofun
      | integer =>
          rcases coerce_integer.mp hv with ⟨d, i, rfl, -, -, rfl⟩ | ⟨i, rfl, rfl⟩
          · exact sizesDecide_of_no_visit nofun nofun rfl nofun
          · exact sizesDecide_of_no_visit nofun nofun rfl nofun
      | @map k t hk ht =>
          rcases coerce_map.mp hv with ⟨rfl, rfl⟩ | ⟨m, fs, rfl, hrequired, hfs, rfl⟩ |
            ⟨m, fs, rfl, hkept, hfs, rfl⟩
          · exact ⟨fun _ => everywhere_map.mpr ⟨rfl, by simp⟩,
              fun _ _ => everywhere_of_no_visit nofun nofun⟩
          · refine ⟨fun h => ?_, fun hkeys => ?_⟩
            · refine everywhere_map.mpr ⟨rfl, mem_assignFields fun g hg => ?_⟩
              obtain ⟨f, hf, hkey, hvalue⟩ := hfs.exists_of_mem_right hg
              have hsizes := (everywhere_map.mp h).2 f hf
              exact ⟨(ih hk hkey).1 hsizes.1, (ih ht hvalue).1 hsizes.2⟩
            · obtain ⟨f, hf, htrue⟩ := anyM_returns_true hrequired
              exact absurd htrue ((everywhere_map.mp hkeys).1 k t m rfl rfl f hf fuel)
          · refine ⟨fun h => ?_, fun hkeys h => ?_⟩
            · refine everywhere_map.mpr ⟨rfl, fun g hg => ?_⟩
              obtain ⟨f, hf, hkey, hvalue⟩ := hfs.exists_of_mem_right hg
              have hsizes := (everywhere_map.mp h).2 f hf
              have hsame := ih hk (coerce_of_check_false (hkept f hf))
              exact ⟨hkey ▸ hsame.1 hsizes.1, (ih ht hvalue).1 hsizes.2⟩
            · refine everywhere_map.mpr ⟨nofun, fun f hf => ?_⟩
              obtain ⟨g, hg, hkey, hvalue⟩ := hfs.exists_of_mem_left hf
              have hconforms := (everywhere_map.mp h).2 g hg
              have hkeysf := (everywhere_map.mp hkeys).2 f hf
              have hsame := ih hk (coerce_of_check_false (hkept f hf))
              exact ⟨hsame.2 hkeysf.1 (hkey ▸ hconforms.1), (ih ht hvalue).2 hkeysf.2 hconforms.2⟩
      | named =>
          obtain ⟨resolved, hresolved, h⟩ := coerce_named.mp hv
          have hsizes := ih (hl _ _ hresolved) h
          simp only [SizesDecide, Conforms, everywhere_named hresolved] at hsizes ⊢
          exact ⟨fun h => ⟨⟨_, hresolved⟩, hsizes.1 h.2⟩,
            fun hkeys h => ⟨nofun, hsizes.2 hkeys.2 h.2⟩⟩
      | @optional t ht =>
          rcases coerce_optional.mp hv with ⟨x, y, rfl, h, rfl⟩ | ⟨rfl, rfl⟩
          · have hsizes := ih ht h
            simp only [SizesDecide, Conforms, everywhere_some] at hsizes ⊢
            exact ⟨fun h => ⟨.inl ⟨y, rfl⟩, hsizes.1 h.2⟩,
              fun hkeys h => ⟨nofun, hsizes.2 hkeys.2 h.2⟩⟩
          · exact sizesDecide_of_no_visit not_visits_none not_visits_none (.inr rfl) nofun
      | @«structure» fields names hfields =>
          obtain ⟨m, m', rfl, h, rfl⟩ := coerce_structure.mp hv
          have hdone := foldlM_returns names h
          refine ⟨fun h => everywhere_structure.mpr ⟨⟨m', rfl, fun f hf hnone => ?_⟩,
            fun f hf y hy => ?_⟩, fun hkeys h => everywhere_structure.mpr ⟨nofun,
            fun f hf x hx => ?_⟩⟩
          · rcases hdone f hf with ⟨x, y, -, -, hfound⟩ | ⟨-, homit, -⟩
            · rw [hfound] at hnone
              cases hnone
            · exact homit
          · rcases hdone f hf with ⟨x, y', hx, hxy, hfound⟩ | ⟨-, -, hnone⟩
            · rw [hfound] at hy
              cases hy
              exact (ih (hfields f hf) hxy).1 ((everywhere_structure.mp h).2 f hf x hx)
            · rw [hnone] at hy
              cases hy
          · rcases hdone f hf with ⟨x', y, hx', hxy, hfound⟩ | ⟨hnone, -, -⟩
            · rw [hx'] at hx
              cases hx
              exact (ih (hfields f hf) hxy).2 ((everywhere_structure.mp hkeys).2 f hf _ hx')
                ((everywhere_structure.mp h).2 f hf y hfound)
            · rw [hnone] at hx
              cases hx
      | @union members names hmembers =>
          obtain ⟨m, x, y, rfl, hfind, h, rfl⟩ := coerce_union.mp hv
          have hmem := List.mem_of_find?_eq_some hfind
          have hsizes := ih (hmembers m hmem) h
          simp only [SizesDecide, Conforms, everywhere_union hfind] at hsizes ⊢
          exact ⟨fun h => ⟨⟨m.1, y, rfl, m, hmem, rfl⟩, hsizes.1 h.2⟩,
            fun hkeys h => ⟨nofun, hsizes.2 hkeys.2 h.2⟩⟩
      | reference | blob | boolean | string | nil | function | record =>
          obtain ⟨he, rfl⟩ := (coerce_expects rfl).mp hv
          exact sizesDecide_of_no_visit (not_visits_expects rfl) (not_visits_expects rfl)
            ((formedAs_expects rfl).mpr he) nofun

/-- A value in which every array has the size that its schema declares is coerced to one that
conforms.  Where the keys of its maps are kept, only such a value is. -/
theorem coerceValue_conforms (hl : ∀ ref t, l ref = .ok t → t.WellFormed) (ht : t.WellFormed)
    (hv : (coerceValue p l fuel t v).Returns r) :
    (Everywhere l HasDeclaredSize t v → Conforms l t r) ∧
    (Everywhere l (KeysAsTheyAre p l) t v →
      (Conforms l t r ↔ Everywhere l HasDeclaredSize t v)) := by
  obtain ⟨henough, honly⟩ := sizesDecide_of_coerce hl ht hv
  exact ⟨henough, fun hkeys => ⟨honly hkeys, henough⟩⟩

end

/-- Pairs of integers in a map. -/
def pairsByName : ApiTypeInfo := .map .string (.array (some 2) .integer)

theorem coerceValue_conforms_pairsByName :
    let v : Dynamic := .map [(.string [97], .array [.integer 1, .float (.ofInteger 2)])]
    let r : Dynamic := .map [(.string [97], .array [.integer 1, .integer 2])]
    (coerceValue (fun _ => none) (fun _ => .error (.other [])) 3 pairsByName v).Returns r ∧
      Conforms (fun _ => .error (.other [])) pairsByName r := by
  intro v r
  have hv : (coerceValue (fun _ => none) (fun _ => .error (.other [])) 3 pairsByName v).Returns r :=
    rfl
  refine ⟨hv, (coerceValue_conforms ?_ ?_ hv).1 ?_⟩
  · rintro ref t ⟨⟩
  · exact .map .string (.array .integer)
  · refine everywhere_map.mpr ⟨nofun, List.forall_mem_singleton.mpr ⟨?_, ?_⟩⟩
    · exact everywhere_of_no_visit nofun nofun
    · refine everywhere_array.mpr ⟨?_, ?_⟩
      · rintro n s items ⟨⟩ ⟨⟩
        rfl
      · simp only [List.forall_mem_cons]
        exact ⟨everywhere_of_no_visit nofun nofun,
          everywhere_of_no_visit nofun nofun, by simp⟩

/-- An array with one item is coerced to the schema of pairs as it is. -/
theorem not_coerceValue_conforms :
    ¬ ∀ (p : Bytes → Option ℤ) (l : ApiNamedTypeReference → Except CoercionException ApiTypeInfo)
      (fuel : ℕ) (t : ApiTypeInfo) (v r : Dynamic), (∀ ref t, l ref = .ok t → t.WellFormed) →
      t.WellFormed → (coerceValue p l fuel t v).Returns r → Conforms l t r := by
  intro h
  have hr : (coerceValue (fun _ => none) (fun _ => .error (.other [])) 2
      (.array (some 2) .integer) (.array [.integer 1])).Returns (.array [.integer 1]) := rfl
  have hconforms := h _ _ _ _ _ _ (by rintro ref t ⟨⟩) (.array .integer) hr
  obtain ⟨⟨_, ⟨⟩, hsize⟩, -⟩ := everywhere_array.mp hconforms
  exact absurd (hsize 2 rfl) (by decide)

end Cradle
