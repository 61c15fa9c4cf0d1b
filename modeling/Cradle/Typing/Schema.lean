import Cradle.Lib.Bounded
import Cradle.Typing.Single
import Cradle.Typing.WellFormed
import Mathlib.Algebra.Group.Int.Defs
import Mathlib.Logic.Relation

/-!
# Coercion of dynamic values

A schema says what a dynamic value is to look like.  `valueRequiresCoercion` tells whether
coercing a value would change it, and `coerceValueImpl` does the coercion.  Both recurse
through the value and look up the named types on their way, which is why they run on fuel.
-/

namespace Cradle

/-! ## Numeric casts -/

namespace Double

/-- `a <= b` of two doubles. -/
def le (a b : Double) : Bool := !a.isNaN && !b.isNaN && a.rank ≤ b.rank

/-- The number without its fraction.  What a conversion makes of a NaN is not defined; this
is a number too large for any `integer`. -/
def truncate (x : Double) : ℤ :=
  let n : ℕ :=
    if x.exponent = 0 then 0
    else if 1075 ≤ x.exponent then (2 ^ 52 + x.mantissa) * 2 ^ (x.exponent - 1075)
    else (2 ^ 52 + x.mantissa) / 2 ^ (1075 - x.exponent)
  if x.sign = 0 then n else -n

/-- The double nearest to an integer, ties to even. -/
def ofInteger (i : ℤ) : Double :=
  let n := i.natAbs
  let mantissa := if n.log2 ≤ 52 then n * 2 ^ (52 - n.log2) else roundShift n (n.log2 - 52)
  let magnitude := if n = 0 then 0 else (n.log2 + 1022) * 2 ^ 52 + mantissa
  ⟨UInt64.ofNat ((if i < 0 then 2 ^ 63 else 0) + magnitude)⟩

end Double

/-! ## Schemas -/

/-- `api_named_type_reference`. -/
structure ApiNamedTypeReference where
  app : Bytes
  name : Bytes
  deriving DecidableEq

/-- `api_structure_field_info`. -/
structure ApiStructureFieldInfo (T : Type) where
  schema : T
  omissible : Option Bool

/-- `api_union_member_info`. -/
structure ApiUnionMemberInfo (T : Type) where
  schema : T

/-- `api_type_info`.  The values of an enum are given by their names; coercion does not look
into functions and records. -/
inductive ApiTypeInfo
  | nil
  | boolean
  | integer
  | float
  | string
  | datetime
  | blob
  | dynamic
  | structure (fields : List (Bytes × ApiStructureFieldInfo ApiTypeInfo))
  | union (members : List (Bytes × ApiUnionMemberInfo ApiTypeInfo))
  | enum (values : List Bytes)
  | map (keySchema valueSchema : ApiTypeInfo)
  | array (size : Option ℤ) (elementSchema : ApiTypeInfo)
  | optional (schema : ApiTypeInfo)
  | reference (schema : ApiTypeInfo)
  | named (ref : ApiNamedTypeReference)
  | function
  | record

/-- The names of fields and members are the keys of a `std::map`, in their order. -/
inductive ApiTypeInfo.WellFormed : ApiTypeInfo → Prop
  | nil : WellFormed .nil
  | boolean : WellFormed .boolean
  | integer : WellFormed .integer
  | float : WellFormed .float
  | string : WellFormed .string
  | datetime : WellFormed .datetime
  | blob : WellFormed .blob
  | dynamic : WellFormed .dynamic
  | structure {fields} : (fields.Pairwise fun f g => f.1 < g.1) →
      (∀ f ∈ fields, f.2.schema.WellFormed) → WellFormed (.structure fields)
  | union {members} : (members.Pairwise fun m n => m.1 < n.1) →
      (∀ m ∈ members, m.2.schema.WellFormed) → WellFormed (.union members)
  | enum {values} : WellFormed (.enum values)
  | map {k t} : k.WellFormed → t.WellFormed → WellFormed (.map k t)
  | array {size t} : t.WellFormed → WellFormed (.array size t)
  | optional {t} : t.WellFormed → WellFormed (.optional t)
  | reference {t} : t.WellFormed → WellFormed (.reference t)
  | named {ref} : WellFormed (.named ref)
  | function : WellFormed .function
  | record : WellFormed .record

/-! ## Exceptions -/

/-- What is wrong, with the error info that goes with it. -/
inductive Fault
  | typeMismatch (expectedValueType actualValueType : ValueType)
  | missingField (fieldName : Bytes)
  | multifieldUnion
  | invalidEnumString (enumString : Bytes)
  | invalidOptionalType (optionalTypeTag : Bytes)
  | other (what : Bytes)
  deriving DecidableEq

/-- The exceptions derived from `boost::exception`, with the path into the value, and the
others.  A path that was not set is empty. -/
inductive CoercionException
  | boost (fault : Fault) (dynamicValuePath : List Dynamic)
  | negativeOverflow
  | positiveOverflow
  | other (what : Bytes)

/-- `add_dynamic_path_element`. -/
def addDynamicPathElement (pathElement : Dynamic) : CoercionException → CoercionException
  | .boost fault path => .boost fault (pathElement :: path)
  | e => e

/-- A computation of the coercion. -/
abbrev Coercing (α : Type) := Bounded CoercionException α

/-- Throw an exception that has no path yet. -/
def throwFault {α : Type} (fault : Fault) : Coercing α := throw (.boost fault [])

/-- The handler around a nested call. -/
def within {α : Type} (pathElement : Dynamic) (x : Coercing α) : Coercing α :=
  Bounded.rethrow (addDynamicPathElement pathElement) x

/-! ## Access to values -/

/-- `check_type`. -/
def checkType (expected actual : ValueType) : Coercing Unit :=
  if expected ≠ actual then throwFault (.typeMismatch expected actual) else pure ()

/-- `cast<dynamic_array>`. -/
def castArray : Dynamic → Coercing (List Dynamic)
  | .array items => pure items
  | value => throwFault (.typeMismatch .array value.type)

/-- `cast<dynamic_map>`. -/
def castMap : Dynamic → Coercing (List (Dynamic × Dynamic))
  | .map fields => pure fields
  | value => throwFault (.typeMismatch .map value.type)

/-- `cast<string>`. -/
def castString : Dynamic → Coercing Bytes
  | .string s => pure s
  | value => throwFault (.typeMismatch .string value.type)

/-- `get_union_tag`. -/
def getUnionTag : List (Dynamic × Dynamic) → Coercing Dynamic
  | [field] => pure field.1
  | _ => throwFault .multifieldUnion

/-- `get_field`. -/
def getField (map : List (Dynamic × Dynamic)) (field : Bytes) : Coercing Dynamic :=
  match Dynamic.findField map (.string field) with
  | some value => pure value
  | none => throwFault (.missingField field)

/-- Assignment through the pointer that `get_field` gives. -/
def updateField (key value : Dynamic) : List (Dynamic × Dynamic) → List (Dynamic × Dynamic)
  | [] => []
  | (k, x) :: map =>
      if !k.lt key && !key.lt k then (k, value) :: map else (k, x) :: updateField key value map

/-- `boost::numeric_cast<integer>`: a double within one of the range is truncated.  A NaN is on
neither side of the range. -/
def numericCastInteger (d : Double) : Coercing ℤ :=
  if d.le (.ofInteger (-2 ^ 63)) then throw .negativeOverflow
  else if (Double.ofInteger (2 ^ 63)).le d then throw .positiveOverflow
  else pure d.truncate

def someTag : Bytes := [115, 111, 109, 101]

def noneTag : Bytes := [110, 111, 110, 101]

/-! ## What the operations return -/

section
variable {α : Type} {e a : ValueType} {v : Dynamic} {m : List (Dynamic × Dynamic)} {s t : Bytes}

@[simp] theorem returns_throwFault {fault : Fault} {x : α} : ¬ (throwFault fault).Returns x :=
  Bounded.not_returns_throw

@[simp] theorem ends_throwFault {fault : Fault} : (throwFault fault : Coercing α).Ends :=
  Bounded.ends_throw

@[simp] theorem returns_within {pathElement : Dynamic} {c : Coercing α} {x : α} :
    (within pathElement c).Returns x ↔ c.Returns x := Bounded.returns_rethrow

@[simp] theorem ends_within {pathElement : Dynamic} {c : Coercing α} :
    (within pathElement c).Ends ↔ c.Ends := Bounded.ends_rethrow

@[simp] theorem returns_checkType {u : Unit} : (checkType e a).Returns u ↔ e = a := by
  rw [checkType]
  split <;> simp_all

@[simp] theorem ends_checkType : (checkType e a).Ends := by
  rw [checkType]
  split <;> simp

/-- A check, then a result that does not depend on it. -/
theorem returns_checked {x y : α} :
    (checkType e a >>= fun _ => (pure x : Coercing α)).Returns y ↔ e = a ∧ x = y := by
  simp

theorem ends_checked {x : α} :
    (checkType e a >>= fun _ => (pure x : Coercing α)).Ends :=
  ends_checkType.bind fun _ _ => Bounded.ends_pure

@[simp] theorem returns_castArray {items : List Dynamic} :
    (castArray v).Returns items ↔ v = .array items := by
  cases v <;> simp [castArray]

@[simp] theorem ends_castArray : (castArray v).Ends := by
  cases v <;> simp [castArray]

@[simp] theorem returns_castMap : (castMap v).Returns m ↔ v = .map m := by
  cases v <;> simp [castMap]

@[simp] theorem ends_castMap : (castMap v).Ends := by
  cases v <;> simp [castMap]

@[simp] theorem returns_castString : (castString v).Returns s ↔ v = .string s := by
  cases v <;> simp [castString]

@[simp] theorem ends_castString : (castString v).Ends := by
  cases v <;> simp [castString]

@[simp] theorem returns_getUnionTag : (getUnionTag m).Returns v ↔ ∃ x, m = [(v, x)] := by
  match m with
  | [] => simp [getUnionTag]
  | [(k, x)] => simp [getUnionTag]
  | _ :: _ :: _ => simp [getUnionTag]

@[simp] theorem ends_getUnionTag : (getUnionTag m).Ends := by
  match m with
  | [] => simp [getUnionTag]
  | [_] => simp [getUnionTag]
  | _ :: _ :: _ => simp [getUnionTag]

@[simp] theorem returns_getField :
    (getField m s).Returns v ↔ Dynamic.findField m (.string s) = some v := by
  rw [getField]
  cases Dynamic.findField m (.string s) <;> simp

@[simp] theorem ends_getField : (getField m s).Ends := by
  rw [getField]
  cases Dynamic.findField m (.string s) <;> simp

@[simp] theorem ends_numericCastInteger {d : Double} : (numericCastInteger d).Ends := by
  rw [numericCastInteger]
  split
  · simp
  · split <;> simp

end

/-! ## Fields with string keys -/

section
variable {k x y : Dynamic} {m : List (Dynamic × Dynamic)} {s t : Bytes}

/-- No other key compares like a string. -/
theorem not_lt_string_iff :
    (!k.lt (.string s) && !(Dynamic.string s).lt k) = true ↔ k = .string s := by
  cases k with
  | string t =>
      simp only [Dynamic.lt_string, Bool.and_eq_true, Bool.not_eq_true', decide_eq_false_iff_not,
        Dynamic.string.injEq, List.not_lt]
      exact ⟨fun h => List.le_antisymm h.2 h.1, fun h => h ▸ ⟨List.le_refl _, List.le_refl _⟩⟩
  | _ => simp [Dynamic.lt, Dynamic.order, Dynamic.type, ValueType.index, compare, compareOfLessAndEq]

theorem findField_cons_self :
    Dynamic.findField ((.string s, x) :: m) (.string s) = some x := by
  rw [Dynamic.findField, List.find?_cons, not_lt_string_iff.mpr rfl]
  rfl

theorem findField_cons_of_ne (h : k ≠ .string s) :
    Dynamic.findField ((k, x) :: m) (.string s) = Dynamic.findField m (.string s) := by
  rw [Dynamic.findField, List.find?_cons, Bool.eq_false_iff.mpr (mt not_lt_string_iff.mp h)]
  rfl

theorem updateField_cons_self :
    updateField (.string s) y ((.string s, x) :: m) = (.string s, y) :: m := by
  rw [updateField, if_pos (not_lt_string_iff.mpr rfl)]

theorem updateField_cons_of_ne (h : k ≠ .string s) :
    updateField (.string s) y ((k, x) :: m) = (k, x) :: updateField (.string s) y m := by
  rw [updateField, if_neg (mt not_lt_string_iff.mp h)]

theorem mem_of_findField (h : Dynamic.findField m (.string s) = some x) :
    (Dynamic.string s, x) ∈ m := by
  induction m with
  | nil => cases h
  | cons f m ih =>
      obtain ⟨k, z⟩ := f
      by_cases hk : k = .string s
      · subst hk
        rw [findField_cons_self] at h
        cases h
        exact List.mem_cons_self
      · rw [findField_cons_of_ne hk] at h
        exact List.mem_cons_of_mem _ (ih h)

/-- What is assigned is found; other fields are as before. -/
theorem findField_updateField_self (h : Dynamic.findField m (.string s) = some x) :
    Dynamic.findField (updateField (.string s) y m) (.string s) = some y := by
  induction m with
  | nil => cases h
  | cons f m ih =>
      obtain ⟨k, z⟩ := f
      by_cases hk : k = .string s
      · subst hk
        rw [updateField_cons_self, findField_cons_self]
      · rw [findField_cons_of_ne hk] at h
        rw [updateField_cons_of_ne hk, findField_cons_of_ne hk, ih h]

theorem findField_updateField_of_ne (h : t ≠ s) :
    Dynamic.findField (updateField (.string s) y m) (.string t) =
      Dynamic.findField m (.string t) := by
  induction m with
  | nil => rfl
  | cons f m ih =>
      obtain ⟨k, z⟩ := f
      by_cases hk : k = .string s
      · subst hk
        have hst : Dynamic.string s ≠ .string t := by
          intro heq
          cases heq
          exact h rfl
        rw [updateField_cons_self, findField_cons_of_ne hst, findField_cons_of_ne hst]
      · rw [updateField_cons_of_ne hk]
        by_cases hkt : k = .string t
        · subst hkt
          rw [findField_cons_self, findField_cons_self]
        · rw [findField_cons_of_ne hkt, findField_cons_of_ne hkt, ih]

theorem updateField_self (h : Dynamic.findField m (.string s) = some x) :
    updateField (.string s) x m = m := by
  induction m with
  | nil => cases h
  | cons f m ih =>
      obtain ⟨k, z⟩ := f
      by_cases hk : k = .string s
      · subst hk
        rw [findField_cons_self] at h
        cases h
        rw [updateField_cons_self]
      · rw [findField_cons_of_ne hk] at h
        rw [updateField_cons_of_ne hk, ih h]

end

section
variable (parsePtime : Bytes → Option ℤ)
  (lookUpNamedType : ApiNamedTypeReference → Except CoercionException ApiTypeInfo)

/-- The schemas that the recursion goes on to from a schema. -/
inductive ApiTypeInfo.Part : ApiTypeInfo → ApiTypeInfo → Prop
  | element {size t} : Part (.array size t) t
  | key {k t} : Part (.map k t) k
  | value {k t} : Part (.map k t) t
  | content {t} : Part (.optional t) t
  | field {fields f} : f ∈ fields → Part (.structure fields) f.2.schema
  | member {members m} : m ∈ members → Part (.union members) m.2.schema
  | resolved {ref t} : lookUpNamedType ref = .ok t → Part (.named ref) t

/-- What is a name stands, in the end, for a schema that is none. -/
inductive ApiTypeInfo.Resolves : ApiTypeInfo → Prop
  | type {t} : (∀ ref, t ≠ .named ref) → Resolves t
  | named {ref t} : lookUpNamedType ref = .ok t → Resolves t → Resolves (.named ref)

/-- Every name that occurs in the schema, or in one that a name stands for, resolves. -/
def ApiTypeInfo.NamesResolve (type : ApiTypeInfo) : Prop :=
  ∀ s, Relation.ReflTransGen (ApiTypeInfo.Part lookUpNamedType) type s →
    s.Resolves lookUpNamedType

/-! ## The check -/

/-- `value_requires_coercion`; `parsePtime` gives nothing where `parse_ptime` throws. -/
def valueRequiresCoercion : ℕ → ApiTypeInfo → Dynamic → Coercing Bool
  | 0, _, _ => Bounded.exhausted
  | fuel + 1, type, value =>
    let recurse := valueRequiresCoercion fuel
    match type with
    | .array _ elementSchema => do
        let items ← castArray value
        items.zipIdx.anyM fun (item, index) =>
          within (.integer index) (recurse elementSchema item)
    | .blob => do
        checkType .blob value.type
        return false
    | .boolean => do
        checkType .boolean value.type
        return false
    | .datetime =>
        match value with
        | .string s =>
            if (parsePtime s).isSome then return true
            -- what does not parse is left to the check
            else do
              checkType .datetime .string
              return false
        | _ => do
            checkType .datetime value.type
            return false
    | .dynamic => return false
    | .enum values => do
        checkType .string value.type
        let s ← castString value
        if s ∈ values then return false else throwFault (.invalidEnumString s)
    | .float =>
        if value.type = .integer then return true
        else do
          checkType .float value.type
          return false
    | .integer =>
        match value with
        | .float d => do
            let i ← numericCastInteger d
            -- coercion must not change the value
            if (Double.ofInteger i).equals d then return true
            else do
              checkType .integer .float
              return false
        | _ => do
            checkType .integer value.type
            return false
    | .map keySchema valueSchema =>
        match value with
        | .array [] => return true
        | _ => do
            let map ← castMap value
            map.anyM fun (key, value) => within key do
              let required ← recurse keySchema key
              if required then return true else recurse valueSchema value
    | .named ref => do
        let resolved ← Bounded.ofExcept (lookUpNamedType ref)
        recurse resolved value
    | .optional schema => do
        let map ← castMap value
        let tag ← castString (← getUnionTag map)
        if tag = someTag then
          within (.string someTag) do
            let content ← getField map someTag
            recurse schema content
        else if tag = noneTag then do
          let content ← getField map noneTag
          checkType .nil content.type
          return false
        else throwFault (.invalidOptionalType tag)
    | .reference _ => do
        checkType .string value.type
        return false
    | .string => do
        checkType .string value.type
        return false
    | .structure fields => do
        let map ← castMap value
        fields.anyM fun (fieldName, fieldInfo) =>
          match Dynamic.findField map (.string fieldName) with
          | some fieldValue => within (.string fieldName) (recurse fieldInfo.schema fieldValue)
          | none =>
              if fieldInfo.omissible = some true then return false
              else throwFault (.missingField fieldName)
    | .union members => do
        let map ← castMap value
        let tag ← castString (← getUnionTag map)
        match members.find? fun member => tag = member.1 with
        | some (memberName, memberInfo) => within (.string memberName) do
            let content ← getField map memberName
            recurse memberInfo.schema content
        | none => throwFault (.invalidEnumString tag)
    | .nil | .function | .record => do
        checkType .nil value.type
        return false

/-! ## The coercion -/

/-- `coerce_value_impl`, with the value as it is left where no exception is thrown. -/
def coerceValueImpl : ℕ → ApiTypeInfo → Dynamic → Coercing Dynamic
  | 0, _, _ => Bounded.exhausted
  | fuel + 1, type, value =>
    let recurse := coerceValueImpl fuel
    match type with
    | .array _ elementSchema => do
        let items ← castArray value
        let items ← items.zipIdx.mapM fun (item, index) =>
          within (.integer index) (recurse elementSchema item)
        return .array items
    | .blob => do
        checkType .blob value.type
        return value
    | .boolean => do
        checkType .boolean value.type
        return value
    | .datetime =>
        match value with
        | .string s =>
            match parsePtime s with
            | some t => return .datetime t
            | none => do
                checkType .datetime .string
                return value
        | _ => do
            checkType .datetime value.type
            return value
    | .dynamic => return value
    | .enum values => do
        checkType .string value.type
        let s ← castString value
        if s ∈ values then return value else throwFault (.invalidEnumString s)
    | .float =>
        match value with
        | .integer i => return .float (.ofInteger i)
        | _ => do
            checkType .float value.type
            return value
    | .integer =>
        match value with
        | .float d => do
            let i ← numericCastInteger d
            if (Double.ofInteger i).equals d then return .integer i
            else do
              checkType .integer .float
              return value
        | _ => do
            checkType .integer value.type
            return value
    | .map keySchema valueSchema =>
        match value with
        | .array [] => return .map []
        | _ => do
            let map ← castMap value
            let keyCoercionRequired ← map.anyM fun (key, _) =>
              valueRequiresCoercion parsePtime lookUpNamedType fuel keySchema key
            if keyCoercionRequired then do
              -- keys cannot be changed in the map, so there is a new one
              let coerced ← map.mapM fun (key, value) => within key do
                let k ← recurse keySchema key
                let v ← recurse valueSchema value
                return (k, v)
              return .map (Dynamic.assignFields coerced)
            else do
              let map ← map.mapM fun (key, value) => within key do
                let v ← recurse valueSchema value
                return (key, v)
              return .map map
    | .named ref => do
        let resolved ← Bounded.ofExcept (lookUpNamedType ref)
        recurse resolved value
    | .optional schema => do
        let map ← castMap value
        let tag ← castString (← getUnionTag map)
        if tag = someTag then
          within (.string someTag) do
            let content ← getField map someTag
            let content ← recurse schema content
            return .map (updateField (.string someTag) content map)
        else if tag = noneTag then do
          let content ← getField map noneTag
          checkType .nil content.type
          return value
        else throwFault (.invalidOptionalType tag)
    | .reference _ => do
        checkType .string value.type
        return value
    | .string => do
        checkType .string value.type
        return value
    | .structure fields => do
        let map ← castMap value
        let map ← fields.foldlM (fun map (fieldName, fieldInfo) =>
          match Dynamic.findField map (.string fieldName) with
          | some fieldValue => within (.string fieldName) do
              let fieldValue ← recurse fieldInfo.schema fieldValue
              return updateField (.string fieldName) fieldValue map
          | none =>
              if fieldInfo.omissible = some true then return map
              else throwFault (.missingField fieldName)) map
        return .map map
    | .union members => do
        let map ← castMap value
        let tag ← castString (← getUnionTag map)
        match members.find? fun member => tag = member.1 with
        | some (memberName, memberInfo) => within (.string memberName) do
            let content ← getField map memberName
            let content ← recurse memberInfo.schema content
            return .map (updateField (.string memberName) content map)
        | none => throwFault (.invalidEnumString tag)
    | .nil | .function | .record => do
        checkType .nil value.type
        return value

/-- `coerce_value`: the copy of the value is coerced. -/
def coerceValue (fuel : ℕ) (type : ApiTypeInfo) (value : Dynamic) : Coercing Dynamic :=
  coerceValueImpl parsePtime lookUpNamedType fuel type value

end

end Cradle
