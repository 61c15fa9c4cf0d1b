import Cradle.Core.Bytes
import Mathlib.Data.List.Forall2
import Mathlib.Data.Ordering.Basic

/-!
# Dynamic values

A `dynamic` is a tree of values whose structure is known only at run time.  Arrays are
vectors; a map is a `std::map`, here the list of its fields in the order of their keys.

Floats are given by their bits.  Comparisons of floats go by value, so that the two
zeros are equal and a NaN is not equal to itself; comparisons of blobs go by their bytes.
-/

namespace Cradle

/-- A `double`, by its bits. -/
structure Double where
  bits : UInt64
  deriving DecidableEq, Repr

namespace Double

/-- The bits without the sign. -/
def magnitude (x : Double) : ℕ := x.bits.toNat % 2 ^ 63

def isNaN (x : Double) : Bool := 0x7FF0000000000000 < x.magnitude

/-- The position in the order of the numbers. -/
def rank (x : Double) : ℤ := if x.bits.toNat < 2 ^ 63 then x.magnitude else -x.magnitude

def equals (x y : Double) : Bool := !x.isNaN && !y.isNaN && x.rank == y.rank

/-- Which of the two is less, if any; a NaN is not less than anything. -/
def order (x y : Double) : Ordering := if x.isNaN || y.isNaN then .eq else compare x.rank y.rank

theorem equals_comm (x y : Double) : x.equals y = y.equals x := by
  simp only [equals, Bool.and_comm, beq_eq_decide, eq_comm]

end Double

/-- `dynamic`.  A datetime is its number of ticks. -/
inductive Dynamic
  | nil
  | boolean (b : Bool)
  | integer (i : ℤ)
  | float (x : Double)
  | string (s : Bytes)
  | blob (b : Blob)
  | datetime (t : ℤ)
  | array (items : List Dynamic)
  | map (fields : List (Dynamic × Dynamic))

/-- `value_type`. -/
inductive ValueType
  | nil | boolean | integer | float | string | blob | datetime | array | map
  deriving DecidableEq, Repr

def ValueType.index : ValueType → ℕ
  | nil => 0
  | boolean => 1
  | integer => 2
  | float => 3
  | string => 4
  | blob => 5
  | datetime => 6
  | array => 7
  | map => 8

namespace Dynamic

def type : Dynamic → ValueType
  | nil => .nil
  | boolean _ => .boolean
  | integer _ => .integer
  | float _ => .float
  | string _ => .string
  | blob _ => .blob
  | datetime _ => .datetime
  | array _ => .array
  | map _ => .map

/-! ## Comparisons -/

mutual
/-- `operator==`. -/
def equals : Dynamic → Dynamic → Bool
  | nil, nil => true
  | boolean a, boolean b => a == b
  | integer a, integer b => a == b
  | float a, float b => a.equals b
  | string a, string b => a == b
  | blob a, blob b => a.equals b
  | datetime a, datetime b => a == b
  | array as, array bs => allEqual as bs
  | map as, map bs => fieldsEqual as bs
  | _, _ => false
/-- `operator==` on arrays. -/
def allEqual : List Dynamic → List Dynamic → Bool
  | [], [] => true
  | a :: as, b :: bs => a.equals b && allEqual as bs
  | _, _ => false
/-- `operator==` on maps. -/
def fieldsEqual : List (Dynamic × Dynamic) → List (Dynamic × Dynamic) → Bool
  | [], [] => true
  | (k, x) :: as, (l, y) :: bs => k.equals l && x.equals y && fieldsEqual as bs
  | _, _ => false
end

mutual
/-- Which of the two is less by `operator<`, if any: first by type, then by value. -/
def order : Dynamic → Dynamic → Ordering
  | nil, nil => .eq
  | boolean a, boolean b => compare a b
  | integer a, integer b => compare a b
  | float a, float b => a.order b
  | string a, string b => compareOfLessAndEq a b
  | blob a, blob b => (compare a.size b.size).then (compareOfLessAndEq a.data b.data)
  | datetime a, datetime b => compare a b
  | array as, array bs => itemsOrder as bs
  | map as, map bs => fieldsOrder as bs
  | a, b => compare a.type.index b.type.index
/-- The lexicographic order of arrays. -/
def itemsOrder : List Dynamic → List Dynamic → Ordering
  | [], [] => .eq
  | [], _ :: _ => .lt
  | _ :: _, [] => .gt
  | a :: as, b :: bs => (a.order b).then (itemsOrder as bs)
/-- The lexicographic order of maps. -/
def fieldsOrder : List (Dynamic × Dynamic) → List (Dynamic × Dynamic) → Ordering
  | [], [] => .eq
  | [], _ :: _ => .lt
  | _ :: _, [] => .gt
  | (k, x) :: as, (l, y) :: bs => (k.order l).then ((x.order y).then (fieldsOrder as bs))
end

/-- `operator<`. -/
def lt (a b : Dynamic) : Bool := a.order b == .lt

attribute [local simp] equals order

@[simp] theorem lt_string (s t : Bytes) : (string s).lt (string t) = decide (s < t) := by
  by_cases h : s < t
  · simp [lt, compareOfLessAndEq, h]
  · by_cases he : s = t
    · subst he
      simp [lt, compareOfLessAndEq, List.lt_irrefl]
    · simp [lt, compareOfLessAndEq, h, he]

@[simp] theorem equals_string (s t : Bytes) :
    (string s).equals (string t) = true ↔ s = t := by
  simp

/-! ## Induction -/

/-- Induction over the items of arrays and the keys and values of maps. -/
@[elab_as_elim, induction_eliminator]
theorem induction {P : Dynamic → Prop} (nil : P .nil) (boolean : ∀ b, P (.boolean b))
    (integer : ∀ i, P (.integer i)) (float : ∀ x, P (.float x)) (string : ∀ s, P (.string s))
    (blob : ∀ b, P (.blob b)) (datetime : ∀ t, P (.datetime t))
    (array : ∀ items, (∀ x ∈ items, P x) → P (.array items))
    (map : ∀ fields, (∀ f ∈ fields, P f.1 ∧ P f.2) → P (.map fields)) (v : Dynamic) : P v :=
  match v with
  | .nil => nil
  | .boolean b => boolean b
  | .integer i => integer i
  | .float x => float x
  | .string s => string s
  | .blob b => blob b
  | .datetime t => datetime t
  | .array items => array items fun x hx =>
      have : sizeOf x < sizeOf items := List.sizeOf_lt_of_mem hx
      induction nil boolean integer float string blob datetime array map x
  | .map fields => map fields fun f hf =>
      have : sizeOf f < sizeOf fields := List.sizeOf_lt_of_mem hf
      have : sizeOf f = 1 + sizeOf f.1 + sizeOf f.2 := by cases f; rfl
      ⟨induction nil boolean integer float string blob datetime array map f.1,
        induction nil boolean integer float string blob datetime array map f.2⟩
termination_by sizeOf v
decreasing_by all_goals simp_wf; omega

/-! ## Equality -/

theorem equals_array {as bs : List Dynamic} :
    (array as).equals (array bs) = true ↔ List.Forall₂ (fun a b => a.equals b = true) as bs := by
  simp only [equals]
  induction as generalizing bs with
  | nil => cases bs <;> simp [allEqual]
  | cons a as ih =>
      cases bs with
      | nil => simp [allEqual]
      | cons b bs => simp [allEqual, ih]

theorem equals_map {as bs : List (Dynamic × Dynamic)} :
    (map as).equals (map bs) = true
      ↔ List.Forall₂ (fun a b => a.1.equals b.1 = true ∧ a.2.equals b.2 = true) as bs := by
  simp only [equals]
  induction as generalizing bs with
  | nil => cases bs <;> simp [fieldsEqual]
  | cons a as ih =>
      cases bs with
      | nil => simp [fieldsEqual]
      | cons b bs => simp [fieldsEqual, ih]

theorem equals_symm {a b : Dynamic} (h : a.equals b = true) : b.equals a = true := by
  induction a generalizing b with
  | array as ih =>
      cases b with
      | array bs =>
          rw [equals_array] at h ⊢
          induction h with
          | nil => exact .nil
          | cons hab _ ihs =>
              exact .cons (ih _ List.mem_cons_self hab)
                (ihs fun x hx => ih x (List.mem_cons_of_mem _ hx))
      | _ => simp at h
  | map as ih =>
      cases b with
      | map bs =>
          rw [equals_map] at h ⊢
          induction h with
          | nil => exact .nil
          | cons hab _ ihs =>
              exact .cons ⟨(ih _ List.mem_cons_self).1 hab.1, (ih _ List.mem_cons_self).2 hab.2⟩
                (ihs fun x hx => ih x (List.mem_cons_of_mem _ hx))
      | _ => simp at h
  | float x =>
      cases b with
      | float y =>
          simp only [equals] at h ⊢
          rwa [Double.equals_comm]
      | _ => simp at h
  | _ => cases b <;> simp_all [equals]

/-- The values the diff is made for: no float is a NaN, and the keys of maps are strings.
The fields of a `std::map` are in the order of their keys. -/
inductive Regular : Dynamic → Prop
  | nil : Regular nil
  | boolean (b : Bool) : Regular (boolean b)
  | integer (i : ℤ) : Regular (integer i)
  | float {x : Double} (h : x.isNaN = false) : Regular (float x)
  | string (s : Bytes) : Regular (string s)
  | blob (b : Blob) : Regular (blob b)
  | datetime (t : ℤ) : Regular (datetime t)
  | array {items : List Dynamic} (h : ∀ x ∈ items, Regular x) : Regular (array items)
  | map {fields : List (Dynamic × Dynamic)} (keys : ∀ f ∈ fields, ∃ s, f.1 = string s)
      (sorted : fields.Pairwise fun f g => f.1.lt g.1 = true)
      (values : ∀ f ∈ fields, Regular f.2) : Regular (map fields)

theorem Regular.equals_self {v : Dynamic} (h : v.Regular) : v.equals v = true := by
  induction h with
  | float h => simp [Double.equals, h]
  | array _ ih => exact equals_array.mpr (List.forall₂_same.mpr ih)
  | map keys _ _ ih =>
      refine equals_map.mpr (List.forall₂_same.mpr fun f hf => ⟨?_, ih f hf⟩)
      obtain ⟨s, hs⟩ := keys f hf
      simp [hs]
  | _ => simp [Blob.equals]

/-! ## Sizes -/

mutual
/-- `natively_encoded_sizeof`; `none` is the exception of the `numeric_cast` of the length
of a string to 32 bits. -/
def nativelyEncodedSizeof : Dynamic → Option ℕ
  | nil => some 4
  | boolean _ => some (4 + 1)
  | integer _ => some (4 + 8)
  | float _ => some (4 + 8)
  | string s => if s.length < 2 ^ 32 then some (4 + 4 + s.length) else none
  | blob b => some (4 + 8 + b.size)
  | datetime _ => some (4 + 8)
  | array items => (itemsEncodedSizeof items).map (4 + 8 + ·)
  | map fields => (fieldsEncodedSizeof fields).map (4 + 8 + ·)
def itemsEncodedSizeof : List Dynamic → Option ℕ
  | [] => some 0
  | x :: xs => x.nativelyEncodedSizeof.bind fun m => (itemsEncodedSizeof xs).map (m + ·)
def fieldsEncodedSizeof : List (Dynamic × Dynamic) → Option ℕ
  | [] => some 0
  | (k, x) :: fs =>
      k.nativelyEncodedSizeof.bind fun l => x.nativelyEncodedSizeof.bind fun m =>
        (fieldsEncodedSizeof fs).map (l + m + ·)
end

/-- Every string in the value has fewer than `2 ^ 32` bytes. -/
inductive ShortStrings : Dynamic → Prop
  | nil : ShortStrings nil
  | boolean (b : Bool) : ShortStrings (boolean b)
  | integer (i : ℤ) : ShortStrings (integer i)
  | float (x : Double) : ShortStrings (float x)
  | string {s : Bytes} (h : s.length < 2 ^ 32) : ShortStrings (string s)
  | blob (b : Blob) : ShortStrings (blob b)
  | datetime (t : ℤ) : ShortStrings (datetime t)
  | array {items : List Dynamic} (h : ∀ x ∈ items, ShortStrings x) : ShortStrings (array items)
  | map {fields : List (Dynamic × Dynamic)} (keys : ∀ f ∈ fields, ShortStrings f.1)
      (values : ∀ f ∈ fields, ShortStrings f.2) : ShortStrings (map fields)

theorem itemsEncodedSizeof_isSome {items : List Dynamic} :
    (itemsEncodedSizeof items).isSome ↔ ∀ x ∈ items, x.nativelyEncodedSizeof.isSome := by
  induction items with
  | nil => simp [itemsEncodedSizeof]
  | cons x xs ih =>
      simp only [itemsEncodedSizeof, List.forall_mem_cons, ← ih]
      cases x.nativelyEncodedSizeof <;> simp

theorem fieldsEncodedSizeof_isSome {fields : List (Dynamic × Dynamic)} :
    (fieldsEncodedSizeof fields).isSome ↔ ∀ f ∈ fields,
      f.1.nativelyEncodedSizeof.isSome ∧ f.2.nativelyEncodedSizeof.isSome := by
  induction fields with
  | nil => simp [fieldsEncodedSizeof]
  | cons f fs ih =>
      simp only [fieldsEncodedSizeof, List.forall_mem_cons, ← ih]
      cases f.1.nativelyEncodedSizeof with
      | none => simp
      | some l => cases f.2.nativelyEncodedSizeof <;> simp

/-- Exactly the values with short strings can be encoded. -/
theorem nativelyEncodedSizeof_isSome {v : Dynamic} :
    v.nativelyEncodedSizeof.isSome ↔ v.ShortStrings := by
  induction v with
  | string s =>
      refine ⟨fun h => .string ?_, fun h => ?_⟩
      · simp only [nativelyEncodedSizeof] at h
        by_contra hlong
        rw [if_neg hlong] at h
        simp at h
      · cases h with
        | string h =>
            rw [nativelyEncodedSizeof, if_pos h]
            rfl
  | array items ih =>
      simp only [nativelyEncodedSizeof, Option.isSome_map, itemsEncodedSizeof_isSome]
      refine ⟨fun h => .array fun x hx => (ih x hx).mp (h x hx), fun h x hx => ?_⟩
      cases h with
      | array h => exact (ih x hx).mpr (h x hx)
  | map fields ih =>
      simp only [nativelyEncodedSizeof, Option.isSome_map, fieldsEncodedSizeof_isSome]
      refine ⟨fun h => .map (fun f hf => ?_) fun f hf => ?_, fun h f hf => ?_⟩
      · exact (ih f hf).1.mp (h f hf).1
      · exact (ih f hf).2.mp (h f hf).2
      · cases h with
        | map keys values => exact ⟨(ih f hf).1.mpr (keys f hf), (ih f hf).2.mpr (values f hf)⟩
  | _ => exact ⟨fun _ => by constructor, fun _ => rfl⟩

end Dynamic

/-- The sizes of the C++ types that `deep_sizeof` adds up. -/
structure Abi where
  dynamic : ℕ
  string : ℕ
  vector : ℕ
  map : ℕ
  optionalDynamic : ℕ
  blob : ℕ
  ptime : ℕ
  enum : ℕ

namespace Dynamic

mutual
/-- `deep_sizeof`. -/
def deepSizeof (abi : Abi) : Dynamic → ℕ
  | nil => abi.dynamic
  | boolean _ => abi.dynamic + 1
  | integer _ => abi.dynamic + 8
  | float _ => abi.dynamic + 8
  | string s => abi.dynamic + (abi.string + s.length)
  | blob b => abi.dynamic + (abi.blob + b.size)
  | datetime _ => abi.dynamic + abi.ptime
  | array items => abi.dynamic + (abi.vector + itemsDeepSizeof abi items)
  | map fields => abi.dynamic + (abi.map + fieldsDeepSizeof abi fields)
def itemsDeepSizeof (abi : Abi) : List Dynamic → ℕ
  | [] => 0
  | x :: xs => x.deepSizeof abi + itemsDeepSizeof abi xs
def fieldsDeepSizeof (abi : Abi) : List (Dynamic × Dynamic) → ℕ
  | [] => 0
  | (k, x) :: fs => k.deepSizeof abi + x.deepSizeof abi + fieldsDeepSizeof abi fs
end

/-! ## Operations on the fields of a map -/

/-- `std::map::find`. -/
def findField (fields : List (Dynamic × Dynamic)) (key : Dynamic) : Option Dynamic :=
  (fields.find? fun f => !f.1.lt key && !key.lt f.1).map Prod.snd

/-- Assignment to `map[key]`. -/
def setField (key value : Dynamic) : List (Dynamic × Dynamic) → List (Dynamic × Dynamic)
  | [] => [(key, value)]
  | (k, x) :: fields =>
      if k.lt key then (k, x) :: setField key value fields
      else if key.lt k then (key, value) :: (k, x) :: fields
      else (k, value) :: fields

/-- `std::map::erase`. -/
def eraseField (fields : List (Dynamic × Dynamic)) (key : Dynamic) : List (Dynamic × Dynamic) :=
  fields.filter fun f => f.1.lt key || key.lt f.1

end Dynamic
end Cradle
