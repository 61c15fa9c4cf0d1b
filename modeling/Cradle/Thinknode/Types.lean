import Cradle.Typing.Dynamic

/-!
# Thinknode types and calculation requests

The two unions that the Thinknode interface is written in.  A `std::map` is the list of its
entries in the order of their keys.
-/

namespace Cradle.Thinknode

/-- A `std::string`, as the list of its characters. -/
abbrev Text := List Char

/-- `thinknode_structure_field_info`. -/
structure StructureFieldInfo (T : Type) where
  description : Text
  omissible : Option Bool
  schema : T

/-- `thinknode_union_member_info`. -/
structure UnionMemberInfo (T : Type) where
  description : Text
  schema : T

/-- `thinknode_enum_value_info`. -/
structure EnumValueInfo where
  description : Text
  deriving DecidableEq

/-- `thinknode_type_info`. -/
inductive TypeInfo
  | array (elementSchema : TypeInfo) (size : Option ℤ)
  | blob
  | boolean
  | datetime
  | dynamic
  | enum (values : List (Text × EnumValueInfo))
  | float
  | integer
  | map (keySchema valueSchema : TypeInfo)
  | named (account : Option Text) (app name : Text)
  | nil
  | optional (schema : TypeInfo)
  | reference (schema : TypeInfo)
  | string
  | structure (fields : List (Text × StructureFieldInfo TypeInfo))
  | union (members : List (Text × UnionMemberInfo TypeInfo))

/-- Induction over the schemas of fields and members. -/
@[elab_as_elim, induction_eliminator]
theorem TypeInfo.induction {P : TypeInfo → Prop}
    (array : ∀ t size, P t → P (.array t size)) (blob : P .blob) (boolean : P .boolean)
    (datetime : P .datetime) (dynamic : P .dynamic) (enum : ∀ values, P (.enum values))
    (float : P .float) (integer : P .integer) (map : ∀ k v, P k → P v → P (.map k v))
    (named : ∀ account app name, P (.named account app name)) (nil : P .nil)
    (optional : ∀ t, P t → P (.optional t)) (reference : ∀ t, P t → P (.reference t))
    (string : P .string) (structure' : ∀ fields, (∀ f ∈ fields, P f.2.schema) →
      P (.structure fields))
    (union : ∀ members, (∀ m ∈ members, P m.2.schema) → P (.union members))
    (t : TypeInfo) : P t :=
  match t with
  | .array t size => array t size (induction array blob boolean datetime dynamic enum float
      integer map named nil optional reference string structure' union t)
  | .blob => blob
  | .boolean => boolean
  | .datetime => datetime
  | .dynamic => dynamic
  | .enum values => enum values
  | .float => float
  | .integer => integer
  | .map k v => map k v
      (induction array blob boolean datetime dynamic enum float integer map named nil optional
        reference string structure' union k)
      (induction array blob boolean datetime dynamic enum float integer map named nil optional
        reference string structure' union v)
  | .named account app name => named account app name
  | .nil => nil
  | .optional t => optional t (induction array blob boolean datetime dynamic enum float
      integer map named nil optional reference string structure' union t)
  | .reference t => reference t (induction array blob boolean datetime dynamic enum float
      integer map named nil optional reference string structure' union t)
  | .string => string
  | .structure fields => structure' fields fun f hf =>
      have : sizeOf f < sizeOf fields := List.sizeOf_lt_of_mem hf
      have : sizeOf f.2.schema < sizeOf f := by
        obtain ⟨name, description, omissible, schema⟩ := f
        simp
        omega
      induction array blob boolean datetime dynamic enum float integer map named nil optional
        reference string structure' union f.2.schema
  | .union members => union members fun m hm =>
      have : sizeOf m < sizeOf members := List.sizeOf_lt_of_mem hm
      have : sizeOf m.2.schema < sizeOf m := by
        obtain ⟨name, description, schema⟩ := m
        simp
        omega
      induction array blob boolean datetime dynamic enum float integer map named nil optional
        reference string structure' union m.2.schema
termination_by sizeOf t
decreasing_by all_goals (simp_wf; try omega)

end Cradle.Thinknode
