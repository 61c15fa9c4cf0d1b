import Cradle.Typing.RawMemory
import Cradle.Typing.WellFormed

/-!
# The native encoding of dynamic values

The writer puts a 32-bit type tag in front of each value.  All numbers are in the order
of the machine, except for the length of a string, which is big-endian and 32 bits wide
where the counts of blobs, arrays and maps have 64 bits.  The digests that identify local
calculations are taken of the concatenation of such encodings.
-/

namespace Cradle

/-- The exception of the reader. -/
inductive CorruptData
  | corruptData
  deriving DecidableEq, Repr

namespace Dynamic

/-! ## Writing -/

/-- The tag in front of a value. -/
def writeType (t : ValueType) : Bytes := IntType.uint32.stream t.index

mutual
/-- `write_natively_encoded_value`; `none` is the exception of the `numeric_cast` of the
length of a string. -/
def writeNativelyEncodedValue : Dynamic → Option Bytes
  | nil => some (writeType .nil)
  | boolean b => some (writeType .boolean ++ IntType.uint8.stream (if b then 1 else 0))
  | integer i => some (writeType .integer ++ IntType.int64.stream i)
  | float x => some (writeType .float ++ IntType.uint64.stream x.bits.toNat)
  | string s => (writeString .uint32 s).map (writeType .string ++ ·)
  | blob b => some (writeType .blob ++ (IntType.uint64.stream b.size ++ b.data))
  | datetime t => some (writeType .datetime ++ IntType.int64.stream (totalMilliseconds t))
  | array items =>
      (writeItems items).map fun out =>
        writeType .array ++ (IntType.uint64.stream items.length ++ out)
  | map fields =>
      (writeFields fields).map fun out =>
        writeType .map ++ (IntType.uint64.stream fields.length ++ out)
/-- Value after value, as `natively_encoded_sha256` feeds a list of them to the digest. -/
def writeItems : List Dynamic → Option Bytes
  | [] => some []
  | x :: xs => x.writeNativelyEncodedValue.bind fun out => (writeItems xs).map (out ++ ·)
def writeFields : List (Dynamic × Dynamic) → Option Bytes
  | [] => some []
  | (k, x) :: fs =>
      k.writeNativelyEncodedValue.bind fun key => x.writeNativelyEncodedValue.bind fun value =>
        (writeFields fs).map ((key ++ value) ++ ·)
end

/-! ## Reading -/

/-- The switch over the type tag.  A value with an unknown tag is left as the caller made it,
which is nil. -/
def readPayload (readNested : Decoder CorruptData UInt8 Dynamic) :
    ℕ → Decoder CorruptData UInt8 Dynamic
  | 0 => return nil
  | 1 => do
      let x ← rawReadInt .corruptData .uint8
      return boolean (x != 0)
  | 2 => do
      let x ← rawReadInt .corruptData .int64
      return integer x
  | 3 => do
      let x ← rawReadInt .corruptData .uint64
      return float ⟨UInt64.ofNat x.toNat⟩
  | 4 => do
      let s ← readSizedString .corruptData .uint32
      return string s
  | 5 => do
      let length ← rawReadInt .corruptData .uint64
      let bv ← rawRead .corruptData length.toNat
      return blob (.ofBytes bv)
  | 6 => do
      let t ← rawReadInt .corruptData .int64
      return datetime (ofMilliseconds t)
  | 7 => do
      let length ← rawReadInt .corruptData .uint64
      let items ← Decoder.times readNested length.toNat
      return array items
  | 8 => do
      let length ← rawReadInt .corruptData .uint64
      let fields ← Decoder.times (do
        let key ← readNested
        let value ← readNested
        return (key, value)) length.toNat
      return map (assignFields fields)
  | _ => return nil

/-- `read_natively_encoded_value`, with as many nested calls as there is fuel for. -/
def readValue : ℕ → Decoder CorruptData UInt8 Dynamic
  | 0 => throw .corruptData
  | fuel + 1 => do
      let type ← rawReadInt .corruptData .uint32
      readPayload (readValue fuel) type.toNat

/-- `read_natively_encoded_value`.  Every nested call takes the four bytes of a tag first, so
the fuel is used up only where no byte is left and the read of the tag fails anyway. -/
def readNativelyEncodedValue : Decoder CorruptData UInt8 Dynamic := fun bs =>
  readValue bs.length bs

/-- What the native encoding carries. -/
def nativeLimits : Limits where
  float x := x.isNaN = false
  string s := s.length < 2 ^ 32
  blob b := b.size < 2 ^ 64
  datetime t := 1000 ∣ t
  array items := items.length < 2 ^ 64
  map fields := fields.length < 2 ^ 64

/-! ## Sizes -/

theorem writeItems_length {items : List Dynamic}
    (h : ∀ x ∈ items, x.writeNativelyEncodedValue.map List.length = x.nativelyEncodedSizeof) :
    (writeItems items).map List.length = itemsEncodedSizeof items := by
  induction items with
  | nil => rfl
  | cons x xs ih =>
      have hx := h x (by simp)
      have hxs := ih fun y hy => h y (by simp [hy])
      simp only [writeItems, itemsEncodedSizeof, ← hx, ← hxs]
      cases x.writeNativelyEncodedValue with
      | none => rfl
      | some out => cases writeItems xs <;> simp

theorem writeFields_length {fields : List (Dynamic × Dynamic)}
    (h : ∀ f ∈ fields,
      f.1.writeNativelyEncodedValue.map List.length = f.1.nativelyEncodedSizeof ∧
      f.2.writeNativelyEncodedValue.map List.length = f.2.nativelyEncodedSizeof) :
    (writeFields fields).map List.length = fieldsEncodedSizeof fields := by
  induction fields with
  | nil => rfl
  | cons f fs ih =>
      obtain ⟨hk, hx⟩ := h f (by simp)
      have hfs := ih fun g hg => h g (by simp [hg])
      simp only [writeFields, fieldsEncodedSizeof, ← hk, ← hx, ← hfs]
      cases f.1.writeNativelyEncodedValue with
      | none => rfl
      | some key =>
          cases f.2.writeNativelyEncodedValue with
          | none => rfl
          | some value => cases writeFields fs <;> simp [Nat.add_assoc]

/-- The size is the number of bytes written, and one throws when the other does. -/
theorem writeNativelyEncodedValue_length (v : Dynamic) :
    v.writeNativelyEncodedValue.map List.length = v.nativelyEncodedSizeof := by
  induction v with
  | string s =>
      simp only [writeNativelyEncodedValue, nativelyEncodedSizeof, writeString]
      have hrange : IntType.uint32.InRange s.length ↔ s.length < 2 ^ 32 :=
        IntType.inRange_unsigned rfl
      by_cases h : s.length < 2 ^ 32
      · rw [if_pos (hrange.mpr h), if_pos h]
        simp [writeType, IntType.width]
        omega
      · rw [if_neg (mt hrange.mp h), if_neg h]
        rfl
  | array items ih =>
      rw [writeNativelyEncodedValue, nativelyEncodedSizeof, ← writeItems_length ih]
      cases writeItems items <;> simp [writeType, IntType.width]; omega
  | map fields ih =>
      rw [writeNativelyEncodedValue, nativelyEncodedSizeof, ← writeFields_length ih]
      cases writeFields fields <;> simp [writeType, IntType.width]; omega
  | blob b =>
      simp [writeNativelyEncodedValue, nativelyEncodedSizeof, writeType, IntType.width, Blob.size]
      omega
  | _ => simp [writeNativelyEncodedValue, nativelyEncodedSizeof, writeType, IntType.width]

theorem Within.shortStrings {v : Dynamic} (h : v.Within nativeLimits) : v.ShortStrings := by
  induction h with
  | nil => exact .nil
  | boolean b => exact .boolean b
  | integer => exact .integer _
  | float => exact .float _
  | string limit => exact .string limit
  | blob => exact .blob _
  | datetime => exact .datetime _
  | array _ _ ih => exact .array ih
  | map _ _ _ _ ihk ihx => exact .map ihk ihx

/-- Every value within the limits can be written. -/
theorem Within.exists_write {v : Dynamic} (h : v.Within nativeLimits) :
    ∃ out, v.writeNativelyEncodedValue = some out := by
  have hsize := nativelyEncodedSizeof_isSome.mpr h.shortStrings
  rw [← writeNativelyEncodedValue_length, Option.isSome_map] at hsize
  exact Option.isSome_iff_exists.mp hsize

/-! ## Reading back what was written -/

/-- The outputs of the items, one after the other. -/
theorem writeItems_eq_some {items : List Dynamic} {out : Bytes} (h : writeItems items = some out) :
    ∃ outs, List.Forall₂ (fun x o => x.writeNativelyEncodedValue = some o) items outs ∧
      outs.flatten = out := by
  induction items generalizing out with
  | nil =>
      cases h
      exact ⟨[], .nil, rfl⟩
  | cons x xs ih =>
      rw [writeItems, Option.bind_eq_some_iff] at h
      obtain ⟨o, ho, h⟩ := h
      rw [Option.map_eq_some_iff] at h
      obtain ⟨rest, hrest, rfl⟩ := h
      obtain ⟨outs, houts, rfl⟩ := ih hrest
      exact ⟨o :: outs, .cons ho houts, rfl⟩

theorem writeFields_eq_some {fields : List (Dynamic × Dynamic)} {out : Bytes}
    (h : writeFields fields = some out) :
    ∃ outs, List.Forall₂ (fun f o => ∃ key value, f.1.writeNativelyEncodedValue = some key ∧
        f.2.writeNativelyEncodedValue = some value ∧ key ++ value = o) fields outs ∧
      outs.flatten = out := by
  induction fields generalizing out with
  | nil =>
      cases h
      exact ⟨[], .nil, rfl⟩
  | cons f fs ih =>
      rw [writeFields, Option.bind_eq_some_iff] at h
      obtain ⟨key, hkey, h⟩ := h
      rw [Option.bind_eq_some_iff] at h
      obtain ⟨value, hvalue, h⟩ := h
      rw [Option.map_eq_some_iff] at h
      obtain ⟨rest, hrest, rfl⟩ := h
      obtain ⟨outs, houts, rfl⟩ := ih hrest
      exact ⟨(key ++ value) :: outs, .cons ⟨key, value, hkey, hvalue, rfl⟩ houts, rfl⟩

theorem inRange_count {n : ℕ} (h : n < 2 ^ 64) : IntType.uint64.InRange n :=
  (IntType.inRange_unsigned rfl).mpr h

theorem inRange_type (t : ValueType) : IntType.uint32.InRange t.index := by
  cases t <;> decide

/-- After the tag of a type, the reader goes on with the payload of that type, with fuel for
each byte of it. -/
theorem readsBack_tagged {t : ValueType} {payload : Bytes} {v : Dynamic} {fuel : ℕ}
    (hfuel : (writeType t ++ payload).length ≤ fuel)
    (h : ∀ f, payload.length ≤ f →
      (readPayload (readValue f) t.index).ReadsBack payload v) :
    (readValue fuel).ReadsBack (writeType t ++ payload) v := by
  have hlen : (writeType t).length = 4 := IntType.length_stream _ _
  rw [List.length_append, hlen] at hfuel
  obtain ⟨f, rfl⟩ : ∃ f, fuel = f + 1 := ⟨fuel - 1, by omega⟩
  exact (readsBack_rawReadInt _ (inRange_type t)).bind (h f (by omega))

theorem readsBack_items {items : List Dynamic} {outs : List Bytes} {fuel : ℕ}
    (hread : ∀ x ∈ items, ∀ out, x.writeNativelyEncodedValue = some out → out.length ≤ fuel →
      (readValue fuel).ReadsBack out x.inMemory)
    (houts : List.Forall₂ (fun x o => x.writeNativelyEncodedValue = some o) items outs)
    (hfuel : outs.flatten.length ≤ fuel) :
    List.Forall₂ (readValue fuel).ReadsBack outs (items.map inMemory) := by
  induction houts with
  | nil => exact .nil
  | cons ho _ ih =>
      rw [List.flatten_cons, List.length_append] at hfuel
      refine .cons (hread _ (by simp) _ ho (by omega)) (ih ?_ (by omega))
      intro y hy
      exact hread y (by simp [hy])

theorem readsBack_fields {fields : List (Dynamic × Dynamic)} {outs : List Bytes} {fuel : ℕ}
    (hread : ∀ f ∈ fields, ∀ out, out.length ≤ fuel →
      (f.1.writeNativelyEncodedValue = some out → (readValue fuel).ReadsBack out f.1.inMemory) ∧
      (f.2.writeNativelyEncodedValue = some out → (readValue fuel).ReadsBack out f.2.inMemory))
    (houts : List.Forall₂ (fun f o => ∃ key value, f.1.writeNativelyEncodedValue = some key ∧
      f.2.writeNativelyEncodedValue = some value ∧ key ++ value = o) fields outs)
    (hfuel : outs.flatten.length ≤ fuel) :
    List.Forall₂ (Decoder.ReadsBack (do
      let key ← readValue fuel
      let value ← readValue fuel
      return (key, value))) outs (fields.map fun f => (f.1.inMemory, f.2.inMemory)) := by
  induction houts with
  | nil => exact .nil
  | cons ho _ ih =>
      obtain ⟨key, value, hkey, hvalue, rfl⟩ := ho
      simp only [List.flatten_cons, List.length_append] at hfuel
      refine .cons ?_ (ih (fun g hg => hread g (by simp [hg])) (by omega))
      have hk := (hread _ (by simp) key (by omega)).1 hkey
      have hx := (hread _ (by simp) value (by omega)).2 hvalue
      exact hk.bind (hx.map _)

/-- With one unit of fuel for each byte of the encoding, the reader yields the value and
leaves what follows. -/
theorem readsBack_readValue {v : Dynamic} (h : v.Within nativeLimits) {out : Bytes}
    (hout : v.writeNativelyEncodedValue = some out) {fuel : ℕ} (hfuel : out.length ≤ fuel) :
    (readValue fuel).ReadsBack out v.inMemory := by
  induction h generalizing out fuel with
  | nil =>
      cases hout
      rw [← List.append_nil (writeType .nil)] at hfuel ⊢
      exact readsBack_tagged hfuel fun f _ => .pure nil
  | boolean b =>
      cases hout
      have hb : IntType.uint8.InRange (if b then 1 else 0) := by cases b <;> decide
      refine readsBack_tagged hfuel fun f _ => ?_
      have hread := (readsBack_rawReadInt CorruptData.corruptData hb).map
        fun x => boolean (x != 0)
      cases b <;> exact hread
  | integer range =>
      cases hout
      exact readsBack_tagged hfuel fun f _ => (readsBack_rawReadInt _ range).map integer
  | @float x _ =>
      cases hout
      refine readsBack_tagged hfuel fun f _ => ?_
      have hbits : UInt64.ofNat (x.bits.toNat : ℤ).toNat = x.bits := by simp
      have hread := (readsBack_rawReadInt CorruptData.corruptData
        (inRange_count x.bits.toNat_lt)).map fun n => float ⟨UInt64.ofNat n.toNat⟩
      rwa [hbits] at hread
  | string limit =>
      rw [writeNativelyEncodedValue, Option.map_eq_some_iff] at hout
      obtain ⟨payload, hpayload, rfl⟩ := hout
      exact readsBack_tagged hfuel fun f _ => (readsBack_readSizedString _ hpayload).map string
  | @blob b limit =>
      cases hout
      refine readsBack_tagged hfuel fun f _ => ?_
      refine (readsBack_rawReadInt _ (inRange_count limit)).bind ?_
      exact (readsBack_rawRead _ (by simp [Blob.size])).map fun bv => blob (.ofBytes bv)
  | @datetime t range limit =>
      cases hout
      refine readsBack_tagged hfuel fun f _ => ?_
      have hread := (readsBack_rawReadInt CorruptData.corruptData
        (inRange_totalMilliseconds range limit)).map fun t => datetime (ofMilliseconds t)
      rwa [ofMilliseconds_totalMilliseconds limit] at hread
  | @array items limit _ ih =>
      rw [writeNativelyEncodedValue, Option.map_eq_some_iff] at hout
      obtain ⟨payload, hpayload, rfl⟩ := hout
      obtain ⟨outs, houts, rfl⟩ := writeItems_eq_some hpayload
      refine readsBack_tagged hfuel fun f hf => ?_
      refine (readsBack_rawReadInt _ (inRange_count limit)).bind ?_
      have hle : outs.flatten.length ≤ f := by
        rw [List.length_append] at hf
        omega
      have hitems := Decoder.ReadsBack.times
        (readsBack_items (fun x hx out hout hle => ih x hx hout hle) houts hle)
      rw [List.length_map] at hitems
      have hread := hitems.map array
      rwa [← inMemory_array] at hread
  | @map fields limit sorted _ _ ihk ihx =>
      rw [writeNativelyEncodedValue, Option.map_eq_some_iff] at hout
      obtain ⟨payload, hpayload, rfl⟩ := hout
      obtain ⟨outs, houts, rfl⟩ := writeFields_eq_some hpayload
      refine readsBack_tagged hfuel fun f hf => ?_
      refine (readsBack_rawReadInt _ (inRange_count limit)).bind ?_
      have hle : outs.flatten.length ≤ f := by
        rw [List.length_append] at hf
        omega
      have hfields := Decoder.ReadsBack.times
        (readsBack_fields (fun g hg out hle => ⟨fun h => ihk g hg h hle, fun h => ihx g hg h hle⟩)
          houts hle)
      rw [List.length_map] at hfields
      have hread := hfields.map fun fields => map (assignFields fields)
      rwa [assignFields_inMemory sorted] at hread

theorem readsBack_readNativelyEncodedValue {v : Dynamic} (h : v.Within nativeLimits) {out : Bytes}
    (hout : v.writeNativelyEncodedValue = some out) :
    readNativelyEncodedValue.ReadsBack out v.inMemory := by
  intro rest
  exact readsBack_readValue h hout (by simp) rest

/-! ## Lists of values -/

/-- The encoding of a value that can be written. -/
def nativeEncoding (v : Dynamic) : Bytes := v.writeNativelyEncodedValue.getD []

theorem Within.write_eq {v : Dynamic} (h : v.Within nativeLimits) :
    v.writeNativelyEncodedValue = some v.nativeEncoding := by
  obtain ⟨out, hout⟩ := h.exists_write
  rw [nativeEncoding, hout, Option.getD_some]

theorem writeItems_eq_flatMap {vs : List Dynamic} (h : ∀ v ∈ vs, v.Within nativeLimits) :
    writeItems vs = some (vs.flatMap nativeEncoding) := by
  induction vs with
  | nil => rfl
  | cons v vs ih =>
      rw [writeItems, (h v (by simp)).write_eq, ih fun w hw => h w (by simp [hw])]
      rfl

theorem selfDelimiting_nativeEncoding :
    PrefixCode.SelfDelimiting nativeEncoding (·.Within nativeLimits)
      fun v w => v.inMemory = w.inMemory :=
  .of_readsBack fun _ hv => readsBack_readNativelyEncodedValue hv hv.write_eq

theorem nativeEncoding_ne_nil {v : Dynamic} (h : v.Within nativeLimits) :
    v.nativeEncoding ≠ [] := by
  intro hnil
  have hread := readsBack_readNativelyEncodedValue h h.write_eq []
  rw [hnil] at hread
  cases hread

/-- A value is read back from its encoding, whatever follows, and nothing of what follows is
taken; the encoding has the size that was computed for it; and the concatenated encodings
of two lists of values agree only if the lists do, item by item. -/
theorem native_roundTrip :
    (∀ v : Dynamic, v.Within nativeLimits → ∃ out, v.writeNativelyEncodedValue = some out ∧
      (∀ rest, readNativelyEncodedValue.run (out ++ rest) = .ok (v.inMemory, rest)) ∧
      v.inMemory.equals v = true ∧ v.nativelyEncodedSizeof = some out.length) ∧
    ∀ vs ws : List Dynamic, (∀ v ∈ vs, v.Within nativeLimits) →
      (∀ w ∈ ws, w.Within nativeLimits) → writeItems vs = writeItems ws →
        List.Forall₂ (fun v w => v.inMemory = w.inMemory ∧ v.equals w = true) vs ws := by
  constructor
  · intro v hv
    obtain ⟨out, hout⟩ := hv.exists_write
    refine ⟨out, hout, readsBack_readNativelyEncodedValue hv hout, ?_, ?_⟩
    · rw [inMemory_equals]
      exact hv.equals_self fun _ hx => hx
    · rw [← writeNativelyEncodedValue_length, hout, Option.map_some]
  · intro vs ws hvs hws he
    rw [writeItems_eq_flatMap hvs, writeItems_eq_flatMap hws, Option.some.injEq] at he
    have hsame := selfDelimiting_nativeEncoding.flatMap_separates
      (fun _ hv => nativeEncoding_ne_nil hv) hvs hws he
    have hboth := (List.forall₂_and_left _ _).mpr ⟨hws, hsame.flip⟩
    exact (hboth.imp fun w v h => ⟨h.2, h.1.equals_of_inMemory_eq (fun _ hx => hx) h.2⟩).flip

theorem native_roundTrip_pair :
    ∃ out, (map [(nil, array [boolean true, datetime (-1000)])]).writeNativelyEncodedValue
        = some out ∧
      readNativelyEncodedValue.run (out ++ [7])
        = .ok (map [(nil, array [boolean true, datetime (-1000)])], [7]) := by
  have hv : (map [(nil, array [boolean true, datetime (-1000)])]).Within nativeLimits := by
    refine .map (by simp [nativeLimits]) (by simp) ?_ ?_
    · simpa using .nil
    · simp only [List.mem_singleton, forall_eq]
      refine .array (by simp [nativeLimits]) ?_
      simp only [List.forall_mem_cons]
      exact ⟨.boolean true, .datetime (by decide) ⟨-1, rfl⟩, by simp⟩
  obtain ⟨out, hout, hread, -⟩ := native_roundTrip.1 _ hv
  refine ⟨out, hout, ?_⟩
  exact hread [7]

end Dynamic
end Cradle
