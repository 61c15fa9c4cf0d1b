import Cradle.Core.UniqueHash
import Cradle.Typing.Dynamic
import Mathlib.Data.List.Induction

/-!
# The values of a `dynamic`, and what an encoding can carry of them

Integers are 64-bit, a datetime is a 64-bit number of ticks, and the fields of a map are
in the strict order of their keys.  Each encoding restricts the rest in its own way; its
limits are a parameter of `Within`.

A value that was read owns its blobs as plain memory, so reading back a value yields its
copy in memory: the same value with every blob as plain bytes.
-/

namespace Cradle
namespace Dynamic

/-- What an encoding asks of the values it carries. -/
structure Limits where
  float : Double → Prop := fun _ => True
  string : Bytes → Prop := fun _ => True
  blob : Blob → Prop := fun _ => True
  datetime : ℤ → Prop := fun _ => True
  array : List Dynamic → Prop := fun _ => True
  map : List (Dynamic × Dynamic) → Prop := fun _ => True

/-- A value of the C++ type, all parts of which keep to the limits. -/
inductive Within (L : Limits) : Dynamic → Prop
  | nil : Within L nil
  | boolean (b : Bool) : Within L (boolean b)
  | integer {i : ℤ} (range : IntType.int64.InRange i) : Within L (integer i)
  | float {x : Double} (limit : L.float x) : Within L (float x)
  | string {s : Bytes} (limit : L.string s) : Within L (string s)
  | blob {b : Blob} (limit : L.blob b) : Within L (blob b)
  | datetime {t : ℤ} (range : IntType.int64.InRange t) (limit : L.datetime t) :
      Within L (datetime t)
  | array {items : List Dynamic} (limit : L.array items) (items_within : ∀ x ∈ items, Within L x) :
      Within L (array items)
  | map {fields : List (Dynamic × Dynamic)} (limit : L.map fields)
      (sorted : fields.Pairwise fun f g => f.1.lt g.1 = true)
      (keys : ∀ f ∈ fields, Within L f.1) (values : ∀ f ∈ fields, Within L f.2) :
      Within L (map fields)

/-- No float is a NaN. -/
def withoutNaN : Limits := { float := fun x => x.isNaN = false }

/-! ## Datetimes -/

/-- `total_milliseconds` of the time since 1970: a tick is a microsecond, and the division
truncates. -/
def totalMilliseconds (t : ℤ) : ℤ := t.tdiv 1000

/-- The datetime a number of milliseconds after 1970. -/
def ofMilliseconds (ms : ℤ) : ℤ := ms * 1000

theorem ofMilliseconds_totalMilliseconds {t : ℤ} (h : 1000 ∣ t) :
    ofMilliseconds (totalMilliseconds t) = t :=
  Int.tdiv_mul_cancel h

theorem inRange_totalMilliseconds {t : ℤ} (h : IntType.int64.InRange t) (hms : 1000 ∣ t) :
    IntType.int64.InRange (totalMilliseconds t) := by
  obtain ⟨ms, rfl⟩ := hms
  have hdiv : totalMilliseconds (1000 * ms) = ms := by simp [totalMilliseconds]
  rw [hdiv]
  simp only [IntType.InRange, IntType.lowest, IntType.signed, IntType.width] at h ⊢
  omega

/-! ## Copies in memory -/

mutual
/-- The value with its blobs in plain memory. -/
def inMemory : Dynamic → Dynamic
  | nil => nil
  | boolean b => boolean b
  | integer i => integer i
  | float x => float x
  | string s => string s
  | blob b => blob (.ofBytes b.data)
  | datetime t => datetime t
  | array items => array (itemsInMemory items)
  | map fields => map (fieldsInMemory fields)
def itemsInMemory : List Dynamic → List Dynamic
  | [] => []
  | x :: xs => x.inMemory :: itemsInMemory xs
def fieldsInMemory : List (Dynamic × Dynamic) → List (Dynamic × Dynamic)
  | [] => []
  | (k, x) :: fs => (k.inMemory, x.inMemory) :: fieldsInMemory fs
end

theorem itemsInMemory_eq_map (items : List Dynamic) :
    itemsInMemory items = items.map inMemory := by
  induction items with
  | nil => rfl
  | cons x xs ih => rw [itemsInMemory, ih, List.map_cons]

theorem fieldsInMemory_eq_map (fields : List (Dynamic × Dynamic)) :
    fieldsInMemory fields = fields.map fun f => (f.1.inMemory, f.2.inMemory) := by
  induction fields with
  | nil => rfl
  | cons f fs ih => rw [fieldsInMemory, ih, List.map_cons]

@[simp] theorem inMemory_array (items : List Dynamic) :
    (array items).inMemory = array (items.map inMemory) := by
  rw [inMemory, itemsInMemory_eq_map]

@[simp] theorem inMemory_map (fields : List (Dynamic × Dynamic)) :
    (map fields).inMemory = map (fields.map fun f => (f.1.inMemory, f.2.inMemory)) := by
  rw [inMemory, fieldsInMemory_eq_map]

/-- Copies compare as the values do. -/
@[simp] theorem order_inMemory (a b : Dynamic) : a.inMemory.order b.inMemory = a.order b := by
  induction a generalizing b with
  | blob x => cases b <;> rfl
  | array xs ih =>
      cases b with
      | array ys =>
          simp only [inMemory_array, order]
          induction xs generalizing ys with
          | nil => cases ys <;> rfl
          | cons x xs ihs =>
              cases ys with
              | nil => rfl
              | cons y ys =>
                  simp only [List.map_cons, itemsOrder]
                  rw [ih x (by simp), ihs (fun z hz => ih z (by simp [hz]))]
      | _ => rfl
  | map fs ih =>
      cases b with
      | map gs =>
          simp only [inMemory_map, order]
          induction fs generalizing gs with
          | nil => cases gs <;> rfl
          | cons f fs ihs =>
              cases gs with
              | nil => rfl
              | cons g gs =>
                  simp only [List.map_cons, fieldsOrder]
                  rw [(ih f (by simp)).1, (ih f (by simp)).2, ihs (fun z hz => ih z (by simp [hz]))]
      | _ => rfl
  | _ => cases b <;> rfl

@[simp] theorem lt_inMemory (a b : Dynamic) : a.inMemory.lt b.inMemory = a.lt b := by
  simp [lt]

/-- A copy equals what the value equals. -/
@[simp] theorem inMemory_equals (a b : Dynamic) : a.inMemory.equals b = a.equals b := by
  induction a generalizing b with
  | array xs ih =>
      cases b with
      | array ys =>
          simp only [inMemory_array, equals]
          induction xs generalizing ys with
          | nil => cases ys <;> rfl
          | cons x xs ihs =>
              cases ys with
              | nil => rfl
              | cons y ys =>
                  simp only [List.map_cons, allEqual]
                  rw [ih x (by simp), ihs (fun z hz => ih z (by simp [hz]))]
      | _ => rfl
  | map fs ih =>
      cases b with
      | map gs =>
          simp only [inMemory_map, equals]
          induction fs generalizing gs with
          | nil => cases gs <;> rfl
          | cons f fs ihs =>
              cases gs with
              | nil => rfl
              | cons g gs =>
                  simp only [List.map_cons, fieldsEqual]
                  rw [(ih f (by simp)).1, (ih f (by simp)).2, ihs (fun z hz => ih z (by simp [hz]))]
      | _ => rfl
  | _ => cases b <;> rfl

theorem Within.equals_self {L : Limits} {v : Dynamic} (h : v.Within L)
    (hnan : ∀ x, L.float x → x.isNaN = false) : v.equals v = true := by
  induction h with
  | float hx => simp [equals, Double.equals, hnan _ hx]
  | array _ _ ih => exact equals_array.mpr (List.forall₂_same.mpr ih)
  | map _ _ _ _ ihk ihx =>
      exact equals_map.mpr (List.forall₂_same.mpr fun f hf => ⟨ihk f hf, ihx f hf⟩)
  | _ => simp [equals, Blob.equals]

/-- Values with the same copy are equal. -/
theorem Within.equals_of_inMemory_eq {L : Limits} {v w : Dynamic} (h : w.Within L)
    (hnan : ∀ x, L.float x → x.isNaN = false) (he : v.inMemory = w.inMemory) :
    v.equals w = true := by
  rw [← inMemory_equals, he, inMemory_equals]
  exact h.equals_self hnan

/-! ## Maps built field by field -/

/-- The map after the assignments `map[key] = value` for each of the fields in turn. -/
def assignFields (fields : List (Dynamic × Dynamic)) : List (Dynamic × Dynamic) :=
  fields.foldl (fun m f => setField f.1 f.2 m) []

/-- A key above all others goes to the end. -/
theorem setField_append {key value : Dynamic} {fields : List (Dynamic × Dynamic)}
    (h : ∀ f ∈ fields, f.1.lt key = true) :
    setField key value fields = fields ++ [(key, value)] := by
  induction fields with
  | nil => rfl
  | cons f fs ih =>
      rw [setField, if_pos (h f (by simp)), ih fun g hg => h g (by simp [hg])]
      rfl

/-- Fields in the order of their keys make the map with these fields. -/
theorem assignFields_sorted {fields : List (Dynamic × Dynamic)}
    (h : fields.Pairwise fun f g => f.1.lt g.1 = true) : assignFields fields = fields := by
  rw [assignFields]
  induction fields using List.reverseRecOn with
  | nil => rfl
  | append_singleton fs f ih =>
      rw [List.pairwise_append] at h
      rw [List.foldl_append, ih h.1, List.foldl_cons, List.foldl_nil]
      exact setField_append fun g hg => h.2.2 g hg f (by simp)

/-- The copy of a map is built from the copies of its fields. -/
theorem assignFields_inMemory {fields : List (Dynamic × Dynamic)}
    (h : fields.Pairwise fun f g => f.1.lt g.1 = true) :
    map (assignFields (fields.map fun f => (f.1.inMemory, f.2.inMemory)))
      = (map fields).inMemory := by
  rw [inMemory_map, assignFields_sorted]
  rw [List.pairwise_map]
  simpa using h

end Dynamic
end Cradle
