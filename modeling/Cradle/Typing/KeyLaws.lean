import Cradle.Typing.Order

/-!
# Dynamic values as keys

Equality, order and hash are three recursions over a value.  Without NaN they go by one
comparison.  The hashes of the parts are those of a library; of these it matters only that the
two zeros have one hash.
-/

namespace Cradle
namespace Dynamic

open Comparison

/-- The hash functions that `hash_value` is made of: `boost::hash` of the types without a hash of
their own, `boost::hash_range` of bytes, and `boost::hash_combine`; and `to_string` of a datetime,
whose hash is that of its text. -/
structure BoostHash where
  boolean : Bool → UInt64
  integer : ℤ → UInt64
  double : Double → UInt64
  string : Bytes → UInt64
  bytes : Bytes → UInt64
  combine : UInt64 → UInt64 → UInt64
  datetimeString : ℤ → Bytes

section
variable (boost : BoostHash)

mutual
/-- `hash_value`. -/
def hashValue : Dynamic → UInt64
  | nil => 0
  | boolean b => boost.boolean b
  | integer i => boost.integer i
  | float x => boost.double x
  | string s => boost.string s
  | blob b => boost.bytes b.data
  | datetime t => boost.string (boost.datetimeString t)
  | array items => itemsHash 0 items
  | map fields => fieldsHash 0 fields
/-- `boost::hash_range` of the items, from a seed on. -/
def itemsHash (seed : UInt64) : List Dynamic → UInt64
  | [] => seed
  | x :: xs => itemsHash (boost.combine seed x.hashValue) xs
/-- `boost::hash_range` of the fields, from a seed on; a field is a pair. -/
def fieldsHash (seed : UInt64) : List (Dynamic × Dynamic) → UInt64
  | [] => seed
  | (k, x) :: fs =>
      fieldsHash
        (boost.combine seed (boost.combine (boost.combine 0 k.hashValue) x.hashValue)) fs
end

end

variable {a b : Dynamic} {boost : BoostHash}

/-! ## Blobs at their addresses -/

/-- Where a blob is in memory. -/
structure BlobLocation where
  address : ℕ
  size : ℕ

namespace BlobLocation
variable (memory : ℕ → UInt8)

/-- The bytes that `data()` points to. -/
def contents (x : BlobLocation) : Bytes := (List.range x.size).map fun i => memory (x.address + i)

/-- `memcmp` of two blobs of one size. -/
def memcmp (x y : BlobLocation) : Ordering :=
  compareOfLessAndEq (x.contents memory) (y.contents memory)

/-- `operator==` on blobs. -/
def equals (x y : BlobLocation) : Bool :=
  x.size == y.size && (x.address == y.address || x.memcmp memory y == .eq)

/-- `operator<` on blobs. -/
def lt (x y : BlobLocation) : Bool :=
  x.size < y.size ||
    (x.size == y.size && x.address != y.address && x.memcmp memory y == .lt)

end BlobLocation

theorem compareOfLessAndEq_bytes_iff {s t : Bytes} : compareOfLessAndEq s t = .eq ↔ s = t :=
  compareOfLessAndEq_eq_eq List.le_refl List.not_le

namespace BlobLocation
variable {memory : ℕ → UInt8} {x y : BlobLocation}

@[simp] theorem length_contents : (x.contents memory).length = x.size := by
  simp [contents]

theorem memcmp_eq_of_address (hsize : x.size = y.size) (haddress : x.address = y.address) :
    x.memcmp memory y = .eq := by
  rw [memcmp, compareOfLessAndEq_bytes_iff, contents, contents, hsize, haddress]

/-- Where the bytes are decides nothing. -/
theorem equals_eq : x.equals memory y =
    (blob (.ofBytes (x.contents memory))).equals (blob (.ofBytes (y.contents memory))) := by
  rw [Bool.eq_iff_iff, Dynamic.equals, Blob.equals_iff, equals, ← compareOfLessAndEq_bytes_iff]
  simp only [Bool.and_eq_true, Bool.or_eq_true, beq_iff_eq]
  constructor
  · rintro ⟨hsize, haddress | hbytes⟩
    · exact memcmp_eq_of_address hsize haddress
    · exact hbytes
  · intro hbytes
    have hlength := congrArg List.length (compareOfLessAndEq_bytes_iff.mp hbytes)
    simp only [Blob.data_ofBytes, length_contents] at hlength
    exact ⟨hlength, .inr hbytes⟩

theorem lt_eq : x.lt memory y =
    (blob (.ofBytes (x.contents memory))).lt (blob (.ofBytes (y.contents memory))) := by
  rw [Bool.eq_iff_iff, Dynamic.lt, order, beq_iff_eq, Ordering.then_eq_lt, lt]
  simp only [Bool.or_eq_true, Bool.and_eq_true, decide_eq_true_eq, beq_iff_eq, bne_iff_ne,
    Blob.size, Blob.data_ofBytes, length_contents, Nat.compare_eq_lt,
    Std.LawfulEqOrd.compare_eq_iff_eq, and_assoc]
  refine or_congr_right (and_congr_right fun hsize => ?_)
  constructor
  · exact And.right
  · intro hless
    refine ⟨fun haddress => ?_, hless⟩
    have heq : x.memcmp memory y = .eq := memcmp_eq_of_address hsize haddress
    exact absurd (hless.symm.trans heq) (by decide)

end BlobLocation

/-! ## Equality goes by the order -/

theorem equals_double_iff {x y : Double} (hx : x.isNaN = false) (hy : y.isNaN = false) :
    x.equals y = true ↔ x.order y = .eq := by
  simp [Double.equals, Double.order, hx, hy]

theorem type_eq_of_equals (h : a.equals b = true) : a.type = b.type := by
  cases a <;> cases b <;> first | rfl | simp [equals] at h

/-- Values of different types are neither equal nor do they compare as such. -/
theorem equals_iff_of_type_ne (h : a.type ≠ b.type) : a.equals b = true ↔ a.order b = .eq := by
  constructor
  · intro heq
    exact absurd (type_eq_of_equals heq) h
  · intro horder
    rw [order_eq_then, Ordering.then_eq_eq] at horder
    exact absurd (type_eq_of_index horder.1) h

/-- Without NaN two values are equal exactly if neither is less than the other. -/
theorem equals_iff_order (ha : a.equals a = true) (hb : b.equals b = true) :
    a.equals b = true ↔ a.order b = .eq := by
  induction a generalizing b with
  | array as ih =>
      cases b with
      | array bs =>
          have has := List.forall₂_same.mp (equals_array.mp ha)
          have hbs := List.forall₂_same.mp (equals_array.mp hb)
          rw [equals_array, order, itemsOrder_eq, Comparison.compareLex_eq_eq]
          exact forall₂_congr_of_mem fun x hx y hy => ih x hx (has x hx) (hbs y hy)
      | _ => exact equals_iff_of_type_ne nofun
  | map as ih =>
      cases b with
      | map bs =>
          have has := List.forall₂_same.mp (equals_map.mp ha)
          have hbs := List.forall₂_same.mp (equals_map.mp hb)
          rw [equals_map, order, fieldsOrder_eq, Comparison.compareLex_eq_eq]
          refine forall₂_congr_of_mem fun f hf g hg => ?_
          rw [Ordering.then_eq_eq, (ih f hf).1 (has f hf).1 (hbs g hg).1,
            (ih f hf).2 (has f hf).2 (hbs g hg).2]
      | _ => exact equals_iff_of_type_ne nofun
  | float x =>
      cases b with
      | float y => exact equals_double_iff (isNaN_of_equals ha) (isNaN_of_equals hb)
      | _ => exact equals_iff_of_type_ne nofun
  | string s =>
      cases b with
      | string t => rw [equals_string, order, compareOfLessAndEq_bytes_iff]
      | _ => exact equals_iff_of_type_ne nofun
  | blob x =>
      cases b with
      | blob y =>
          rw [equals, Blob.equals_iff, order, Ordering.then_eq_eq, compareOfLessAndEq_bytes_iff,
            Std.LawfulEqOrd.compare_eq_iff_eq]
          exact ⟨fun h => ⟨congrArg List.length h, h⟩, And.right⟩
      | _ => exact equals_iff_of_type_ne nofun
  | boolean x =>
      cases b with
      | boolean y => simp [equals, order]
      | _ => exact equals_iff_of_type_ne nofun
  | integer i =>
      cases b with
      | integer j => simp [equals, order]
      | _ => exact equals_iff_of_type_ne nofun
  | datetime t =>
      cases b with
      | datetime u => simp [equals, order]
      | _ => exact equals_iff_of_type_ne nofun
  | nil =>
      cases b with
      | nil => exact iff_of_true rfl rfl
      | _ => exact equals_iff_of_type_ne nofun

/-! ## Equal values have one hash -/

theorem itemsHash_congr {as bs : List Dynamic}
    (h : List.Forall₂ (fun x y => hashValue boost x = hashValue boost y) as bs) (seed : UInt64) :
    itemsHash boost seed as = itemsHash boost seed bs := by
  induction h generalizing seed with
  | nil => rfl
  | cons hxy _ ih => rw [itemsHash, itemsHash, hxy, ih]

theorem fieldsHash_congr {as bs : List (Dynamic × Dynamic)}
    (h : List.Forall₂
      (fun f g => hashValue boost f.1 = hashValue boost g.1 ∧
        hashValue boost f.2 = hashValue boost g.2) as bs) (seed : UInt64) :
    fieldsHash boost seed as = fieldsHash boost seed bs := by
  induction h generalizing seed with
  | nil => rfl
  | cons hfg _ ih => rw [fieldsHash, fieldsHash, hfg.1, hfg.2, ih]

theorem hashValue_eq_of_equals
    (hdouble : ∀ x y : Double, x.equals y = true → boost.double x = boost.double y)
    (h : a.equals b = true) : hashValue boost a = hashValue boost b := by
  have htype := type_eq_of_equals h
  induction a generalizing b with
  | array as ih =>
      cases b <;> cases htype
      rename_i bs
      rw [hashValue, hashValue]
      refine itemsHash_congr (List.forall₂_iff_zip.mpr ⟨(equals_array.mp h).length_eq, ?_⟩) 0
      intro x y hxy
      have heq := (List.forall₂_iff_zip.mp (equals_array.mp h)).2 hxy
      exact ih x (List.of_mem_zip hxy).1 heq (type_eq_of_equals heq)
  | map as ih =>
      cases b <;> cases htype
      rename_i bs
      rw [hashValue, hashValue]
      refine fieldsHash_congr (List.forall₂_iff_zip.mpr ⟨(equals_map.mp h).length_eq, ?_⟩) 0
      intro f g hfg
      obtain ⟨hkey, hvalue⟩ := (List.forall₂_iff_zip.mp (equals_map.mp h)).2 hfg
      obtain ⟨ihk, ihx⟩ := ih f (List.of_mem_zip hfg).1
      exact ⟨ihk hkey (type_eq_of_equals hkey), ihx hvalue (type_eq_of_equals hvalue)⟩
  | float x =>
      cases b <;> cases htype
      exact hdouble x _ h
  | string s =>
      cases b <;> cases htype
      rw [(equals_string s _).mp h]
  | blob x =>
      cases b <;> cases htype
      rename_i y
      exact congrArg boost.bytes ((Blob.equals_iff x y).mp h)
  | boolean x =>
      cases b <;> cases htype
      exact congrArg boost.boolean (beq_iff_eq.mp h)
  | integer i =>
      cases b <;> cases htype
      exact congrArg boost.integer (beq_iff_eq.mp h)
  | datetime t =>
      cases b <;> cases htype
      exact congrArg (fun t => boost.string (boost.datetimeString t)) (beq_iff_eq.mp h)
  | nil =>
      cases b <;> cases htype
      rfl

/-! ## The laws -/

theorem keys_of_equals_self {P : Dynamic → Prop} (hself : ∀ v, P v → v.equals v = true)
    (hdouble : ∀ x y : Double, x.equals y = true → boost.double x = boost.double y) :
    LawfulKeys P equals lt (hashValue boost) := by
  apply LawfulKeys.of_compare
  · exact fun a b _ _ => order_swap a b
  · exact fun a b c ha hb hc => composes_order (hself a ha) (hself b hb) (hself c hc)
  · exact fun a b ha hb => equals_iff_order (hself a ha) (hself b hb)
  · exact fun a b _ _ => lt_iff
  · exact fun a b _ _ h => hashValue_eq_of_equals hdouble h

/-- What `operator==`, `operator<` and `hash_value` make of the addresses of blobs is lawful. -/
theorem blobLocations_lawful (memory : ℕ → UInt8) (boost : BoostHash)
    (hdouble : ∀ x y : Double, x.equals y = true → boost.double x = boost.double y) :
    LawfulKeys (fun _ => True) (BlobLocation.equals memory) (BlobLocation.lt memory)
      fun x => boost.bytes (x.contents memory) := by
  have hkeys : LawfulKeys (fun v => v.equals v = true) equals lt (hashValue boost) :=
    keys_of_equals_self (fun _ hv => hv) hdouble
  have hblobs := hkeys.comap fun x : BlobLocation => blob (.ofBytes (x.contents memory))
  have hself (x : BlobLocation) : x.equals memory x = true := by simp [BlobLocation.equals]
  simp only [← BlobLocation.equals_eq, ← BlobLocation.lt_eq, hself] at hblobs
  exact hblobs

/-- `boost::hash_combine` on 64 bits. -/
def murmurCombine (seed x : UInt64) : UInt64 :=
  let m : UInt64 := 0xc6a4a7935bd1e995
  let k := x * m
  (seed ^^^ (k ^^^ (k >>> 47)) * m) * m + 0xe6546b64

/-- The two zeros are equal. -/
def doubleHash (x : Double) : UInt64 := if x.magnitude = 0 then 0 else x.bits

theorem doubleHash_eq {x y : Double} (h : x.equals y = true) : doubleHash x = doubleHash y := by
  have hrank : x.rank = y.rank := by
    simp only [Double.equals, Bool.and_eq_true, beq_iff_eq] at h
    exact h.2
  have hx := x.bits.toNat_lt
  have hy := y.bits.toNat_lt
  have hzero : x.magnitude = 0 ↔ y.magnitude = 0 := by
    simp only [Double.rank] at hrank
    omega
  by_cases h0 : x.magnitude = 0
  · rw [doubleHash, doubleHash, if_pos h0, if_pos (hzero.mp h0)]
  · rw [doubleHash, doubleHash, if_neg h0, if_neg fun hy0 => h0 (hzero.mpr hy0),
      ← UInt64.toNat_inj]
    simp only [Double.rank, Double.magnitude] at hrank h0
    omega

/-- Numbers hash to themselves; the text of a time is left to its ticks. -/
def murmurHash : BoostHash where
  boolean b := b.toUInt64
  integer := .ofInt
  double := doubleHash
  string s := s.foldl (fun seed byte => murmurCombine seed byte.toUInt64) 0
  bytes s := s.foldl (fun seed byte => murmurCombine seed byte.toUInt64) 0
  combine := murmurCombine
  datetimeString t := leBytes 8 (t % 2 ^ 64).toNat

end Dynamic
end Cradle
