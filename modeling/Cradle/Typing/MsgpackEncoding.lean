import Cradle.Typing.RawMemory
import Cradle.Typing.WellFormed

/-!
# Dynamic values as MessagePack

The calls of a packer make one object of msgpack-c's object model; the bytes it puts out
and the unpacker are a parameter.  A datetime is an extension object whose payload has
the smallest of four widths that holds its milliseconds, and is read by its length.
-/

namespace Cradle

/-- `msgpack::object`. -/
inductive MsgpackObject
  | nil
  | boolean (b : Bool)
  | positiveInteger (u64 : ℕ)
  | negativeInteger (i64 : ℤ)
  | float32 (bits : UInt32)
  | float (f64 : Double)
  | str (s : Bytes)
  | bin (bs : Bytes)
  | array (items : List MsgpackObject)
  | map (fields : List (MsgpackObject × MsgpackObject))
  | ext (type : ℤ) (data : Bytes)

/-- The exceptions of writing and reading. -/
inductive MsgpackError
  | badNumericCast
  | blobSizeLimitExceeded (size limit : ℕ)
  | parsingError (expectedFormat parsingError : String)
  | unpackError
  deriving DecidableEq, Repr

/-- msgpack-c: what its packer puts out for an object, and its unpacker. -/
structure MsgpackC where
  pack : MsgpackObject → Bytes
  unpack : Bytes → Option MsgpackObject

namespace MsgpackObject

/-- `pack_int64`. -/
def ofInt64 (i : ℤ) : MsgpackObject :=
  if 0 ≤ i then positiveInteger i.toNat else negativeInteger i

/-- The extension object for a datetime, given in milliseconds: the smallest type that holds
it, most significant byte first. -/
def ofDatetime (t : ℤ) : MsgpackObject :=
  if t ≥ -0x80 ∧ t < 0x80 then ext 1 (IntType.int8.bigEndian t)
  else if t ≥ -0x8000 ∧ t < 0x8000 then ext 1 (IntType.int16.bigEndian t)
  else if t ≥ -0x80000000 ∧ t < 0x80000000 then ext 1 (IntType.int32.bigEndian t)
  else ext 1 (IntType.int64.bigEndian t)

/-- The milliseconds in the payload of a datetime; a payload of another length leaves zero. -/
def datetimeOf (data : Bytes) : ℤ :=
  match data.length with
  | 1 => IntType.int8.ofBigEndian data
  | 2 => IntType.int16.ofBigEndian data
  | 4 => IntType.int32.ofBigEndian data
  | 8 => IntType.int64.ofBigEndian data
  | _ => 0

end MsgpackObject

/-- The `numeric_cast` of a size to 32 bits. -/
def castSize (n : ℕ) : Except MsgpackError Unit :=
  if n < 2 ^ 32 then .ok () else .error .badNumericCast

theorem castSize_eq_ok {n : ℕ} : castSize n = .ok () ↔ n < 2 ^ 32 := by
  rw [castSize]
  by_cases h : n < 2 ^ 32
  · rw [if_pos h]
    exact iff_of_true rfl h
  · rw [if_neg h]
    exact iff_of_false (by simp) h

namespace Dynamic

mutual
/-- `write_msgpack_value`. -/
def writeMsgpackValue : Dynamic → Except MsgpackError MsgpackObject
  | nil => .ok .nil
  | boolean b => .ok (.boolean b)
  | integer i => .ok (.ofInt64 i)
  | float x => .ok (.float x)
  | string s => (castSize s.length).map fun _ => .str s
  | blob b =>
      if 2 ^ 32 ≤ b.size then .error (.blobSizeLimitExceeded b.size (2 ^ 32))
      else .ok (.bin b.data)
  | datetime t => .ok (.ofDatetime (totalMilliseconds t))
  | array items =>
      (castSize items.length).bind fun _ => (writeMsgpackItems items).map .array
  | map fields =>
      (castSize fields.length).bind fun _ => (writeMsgpackFields fields).map .map
def writeMsgpackItems : List Dynamic → Except MsgpackError (List MsgpackObject)
  | [] => .ok []
  | x :: xs => x.writeMsgpackValue.bind fun o => (writeMsgpackItems xs).map (o :: ·)
def writeMsgpackFields :
    List (Dynamic × Dynamic) → Except MsgpackError (List (MsgpackObject × MsgpackObject))
  | [] => .ok []
  | (k, x) :: fs =>
      k.writeMsgpackValue.bind fun key => x.writeMsgpackValue.bind fun value =>
        (writeMsgpackFields fs).map ((key, value) :: ·)
end

mutual
/-- `read_msgpack_value`.  The blobs refer to the unpacked buffer, which maps no file. -/
def readMsgpackValue : MsgpackObject → Except MsgpackError Dynamic
  | .boolean b => .ok (boolean b)
  | .positiveInteger u64 =>
      if u64 < 2 ^ 63 then .ok (integer u64) else .error .badNumericCast
  | .negativeInteger i64 => .ok (integer i64)
  | .float f64 => .ok (float f64)
  | .str s => .ok (string s)
  | .bin bs => .ok (blob (.ofBytes bs))
  | .array items => (readMsgpackItems items).map array
  | .map fields => (readMsgpackFields fields).map fun fs => map (assignFields fs)
  | .ext type data =>
      if type = 1 then .ok (datetime (ofMilliseconds (MsgpackObject.datetimeOf data)))
      else .error (.parsingError "MessagePack" "unsupported MessagePack extension type")
  | .nil | .float32 _ => .ok nil
def readMsgpackItems : List MsgpackObject → Except MsgpackError (List Dynamic)
  | [] => .ok []
  | o :: os => (readMsgpackValue o).bind fun x => (readMsgpackItems os).map (x :: ·)
def readMsgpackFields :
    List (MsgpackObject × MsgpackObject) → Except MsgpackError (List (Dynamic × Dynamic))
  | [] => .ok []
  | (k, x) :: os =>
      (readMsgpackValue k).bind fun key => (readMsgpackValue x).bind fun value =>
        (readMsgpackFields os).map ((key, value) :: ·)
end

section Codec
variable (codec : MsgpackC)

/-- `value_to_msgpack_string`. -/
def valueToMsgpackString (v : Dynamic) : Except MsgpackError Bytes :=
  v.writeMsgpackValue.map codec.pack

/-- `parse_msgpack_value`. -/
def parseMsgpackValue (bs : Bytes) : Except MsgpackError Dynamic :=
  match codec.unpack bs with
  | some o => readMsgpackValue o
  | none => .error .unpackError

end Codec

/-- Values whose datetimes are whole milliseconds. -/
def wholeMilliseconds : Limits where
  datetime t := 1000 ∣ t

/-- What MessagePack carries of these. -/
def msgpackLimits : Limits where
  string s := s.length < 2 ^ 32
  blob b := b.size < 2 ^ 32
  datetime t := 1000 ∣ t
  array items := items.length < 2 ^ 32
  map fields := fields.length < 2 ^ 32

end Dynamic

/-! ## Datetimes -/

namespace MsgpackObject

theorem datetimeOf_bigEndian {T : IntType} (hs : T.signed = true) {t : ℤ} (h : T.InRange t) :
    datetimeOf (T.bigEndian t) = t := by
  have hread := IntType.ofBigEndian_bigEndian h
  unfold datetimeOf
  rw [IntType.length_bigEndian]
  cases T with
  | int8 | int16 | int32 | int64 => exact hread
  | uint8 | uint16 | uint32 | uint64 => cases hs

/-- The type of the payload is the smallest signed one that holds the milliseconds. -/
theorem ofDatetime_eq {t : ℤ} (h : IntType.int64.InRange t) :
    ∃ T : IntType, T.signed = true ∧ T.InRange t ∧ ofDatetime t = ext 1 (T.bigEndian t) ∧
      ∀ S : IntType, S.signed = true → S.InRange t → T.width ≤ S.width := by
  rw [ofDatetime]
  by_cases h8 : t ≥ -0x80 ∧ t < 0x80
  · rw [if_pos h8]
    refine ⟨.int8, rfl, IntType.inRange_int8.mpr h8, rfl, ?_⟩
    intro S _ _
    cases S <;> decide
  have hn8 : ¬ IntType.int8.InRange t := mt IntType.inRange_int8.mp h8
  rw [if_neg h8]
  by_cases h16 : t ≥ -0x8000 ∧ t < 0x8000
  · rw [if_pos h16]
    refine ⟨.int16, rfl, IntType.inRange_int16.mpr h16, rfl, ?_⟩
    intro S hS hin
    cases S with
    | int8 => exact absurd hin hn8
    | int16 | int32 | int64 => decide
    | _ => cases hS
  have hn16 : ¬ IntType.int16.InRange t := mt IntType.inRange_int16.mp h16
  rw [if_neg h16]
  by_cases h32 : t ≥ -0x80000000 ∧ t < 0x80000000
  · rw [if_pos h32]
    refine ⟨.int32, rfl, IntType.inRange_int32.mpr h32, rfl, ?_⟩
    intro S hS hin
    cases S with
    | int8 => exact absurd hin hn8
    | int16 => exact absurd hin hn16
    | int32 | int64 => decide
    | _ => cases hS
  have hn32 : ¬ IntType.int32.InRange t := mt IntType.inRange_int32.mp h32
  rw [if_neg h32]
  refine ⟨.int64, rfl, h, rfl, ?_⟩
  intro S hS hin
  cases S with
  | int8 => exact absurd hin hn8
  | int16 => exact absurd hin hn16
  | int32 => exact absurd hin hn32
  | int64 => exact Nat.le_refl _
  | _ => cases hS

end MsgpackObject

namespace Dynamic

/-! ## Reading what was written -/

/-- A written integer is read as the same integer. -/
theorem readMsgpackValue_ofInt64 {i : ℤ} (h : IntType.int64.InRange i) :
    readMsgpackValue (.ofInt64 i) = .ok (integer i) := by
  rw [IntType.inRange_int64] at h
  rw [MsgpackObject.ofInt64]
  by_cases hi : 0 ≤ i
  · have hlt : i.toNat < 2 ^ 63 := by omega
    rw [if_pos hi, readMsgpackValue, if_pos hlt, Int.toNat_of_nonneg hi]
  · rw [if_neg hi, readMsgpackValue]

theorem readMsgpackValue_ofDatetime {t : ℤ} (h : IntType.int64.InRange t) :
    readMsgpackValue (.ofDatetime t) = .ok (datetime (ofMilliseconds t)) := by
  obtain ⟨T, hs, hT, he, -⟩ := MsgpackObject.ofDatetime_eq h
  rw [he, readMsgpackValue, if_pos rfl, MsgpackObject.datetimeOf_bigEndian hs hT]

theorem writeMsgpackItems_eq_ok {items : List Dynamic}
    (h : ∀ x ∈ items, ∃ o, x.writeMsgpackValue = .ok o ∧ readMsgpackValue o = .ok x.inMemory) :
    ∃ os, writeMsgpackItems items = .ok os ∧ readMsgpackItems os = .ok (items.map inMemory) := by
  induction items with
  | nil => exact ⟨[], rfl, rfl⟩
  | cons x xs ih =>
      obtain ⟨o, ho, hr⟩ := h x (by simp)
      obtain ⟨os, hos, hrs⟩ := ih fun y hy => h y (by simp [hy])
      refine ⟨o :: os, ?_, ?_⟩
      · rw [writeMsgpackItems, ho, hos]
        rfl
      · rw [readMsgpackItems, hr, hrs]
        rfl

theorem writeMsgpackFields_eq_ok {fields : List (Dynamic × Dynamic)}
    (h : ∀ f ∈ fields,
      (∃ o, f.1.writeMsgpackValue = .ok o ∧ readMsgpackValue o = .ok f.1.inMemory) ∧
      ∃ o, f.2.writeMsgpackValue = .ok o ∧ readMsgpackValue o = .ok f.2.inMemory) :
    ∃ os, writeMsgpackFields fields = .ok os ∧
      readMsgpackFields os = .ok (fields.map fun f => (f.1.inMemory, f.2.inMemory)) := by
  induction fields with
  | nil => exact ⟨[], rfl, rfl⟩
  | cons f fs ih =>
      obtain ⟨⟨key, hkey, hrk⟩, value, hvalue, hrx⟩ := h f (by simp)
      obtain ⟨os, hos, hrs⟩ := ih fun g hg => h g (by simp [hg])
      refine ⟨(key, value) :: os, ?_, ?_⟩
      · rw [writeMsgpackFields, hkey, hvalue, hos]
        rfl
      · rw [readMsgpackFields, hrk, hrx, hrs]
        rfl

/-- A value within the limits is written as an object that is read as the value. -/
theorem Within.readMsgpackValue_write {v : Dynamic} (h : v.Within msgpackLimits) :
    ∃ o, v.writeMsgpackValue = .ok o ∧ readMsgpackValue o = .ok v.inMemory := by
  induction h with
  | nil => exact ⟨_, rfl, rfl⟩
  | boolean b => exact ⟨_, rfl, rfl⟩
  | integer range => exact ⟨_, rfl, readMsgpackValue_ofInt64 range⟩
  | float => exact ⟨_, rfl, rfl⟩
  | @string s limit =>
      refine ⟨.str s, ?_, rfl⟩
      rw [writeMsgpackValue, castSize_eq_ok.mpr limit]
      rfl
  | @blob b limit =>
      refine ⟨.bin b.data, ?_, rfl⟩
      rw [writeMsgpackValue, if_neg (Nat.not_le.mpr limit)]
  | @datetime t range limit =>
      refine ⟨_, rfl, ?_⟩
      rw [readMsgpackValue_ofDatetime (inRange_totalMilliseconds range limit),
        ofMilliseconds_totalMilliseconds limit, inMemory]
  | @array items limit _ ih =>
      obtain ⟨os, hos, hr⟩ := writeMsgpackItems_eq_ok ih
      refine ⟨.array os, ?_, ?_⟩
      · rw [writeMsgpackValue, castSize_eq_ok.mpr limit, hos]
        rfl
      · rw [readMsgpackValue, hr, inMemory_array]
        rfl
  | @map fields limit sorted _ _ ihk ihx =>
      obtain ⟨os, hos, hr⟩ := writeMsgpackFields_eq_ok fun f hf => ⟨ihk f hf, ihx f hf⟩
      refine ⟨.map os, ?_, ?_⟩
      · rw [writeMsgpackValue, castSize_eq_ok.mpr limit, hos]
        rfl
      · rw [readMsgpackValue, hr, ← assignFields_inMemory sorted]
        rfl

/-! ## What can be written -/

theorem mem_writeMsgpackItems {items : List Dynamic} {os : List MsgpackObject}
    (h : writeMsgpackItems items = .ok os) : ∀ x ∈ items, ∃ o, x.writeMsgpackValue = .ok o := by
  induction items generalizing os with
  | nil => simp
  | cons x xs ih =>
      rw [writeMsgpackItems, Except.bind_eq_ok] at h
      obtain ⟨o, ho, h⟩ := h
      rw [Except.map_eq_ok] at h
      obtain ⟨os', hos, -⟩ := h
      rw [List.forall_mem_cons]
      exact ⟨⟨o, ho⟩, ih hos⟩

theorem mem_writeMsgpackFields {fields : List (Dynamic × Dynamic)}
    {os : List (MsgpackObject × MsgpackObject)} (h : writeMsgpackFields fields = .ok os) :
    ∀ f ∈ fields, (∃ o, f.1.writeMsgpackValue = .ok o) ∧ ∃ o, f.2.writeMsgpackValue = .ok o := by
  induction fields generalizing os with
  | nil => simp
  | cons f fs ih =>
      rw [writeMsgpackFields, Except.bind_eq_ok] at h
      obtain ⟨key, hkey, h⟩ := h
      rw [Except.bind_eq_ok] at h
      obtain ⟨value, hvalue, h⟩ := h
      rw [Except.map_eq_ok] at h
      obtain ⟨os', hos, -⟩ := h
      rw [List.forall_mem_cons]
      exact ⟨⟨⟨key, hkey⟩, value, hvalue⟩, ih hos⟩

/-- A value that can be written is within the limits. -/
theorem Within.of_writeMsgpackValue {v : Dynamic} (h : v.Within wholeMilliseconds)
    {o : MsgpackObject} (hv : v.writeMsgpackValue = .ok o) : v.Within msgpackLimits := by
  induction h generalizing o with
  | nil => exact .nil
  | boolean b => exact .boolean b
  | integer range => exact .integer range
  | float => exact .float trivial
  | string =>
      rw [writeMsgpackValue, Except.map_eq_ok] at hv
      obtain ⟨_, hcast, -⟩ := hv
      exact .string (castSize_eq_ok.mp hcast)
  | blob =>
      rw [writeMsgpackValue] at hv
      split at hv
      · cases hv
      · exact .blob (Nat.not_le.mp ‹_›)
  | datetime range limit => exact .datetime range limit
  | array _ _ ih =>
      rw [writeMsgpackValue, Except.bind_eq_ok] at hv
      obtain ⟨_, hcast, hv⟩ := hv
      rw [Except.map_eq_ok] at hv
      obtain ⟨os, hos, -⟩ := hv
      refine .array (castSize_eq_ok.mp hcast) fun x hx => ?_
      obtain ⟨o, ho⟩ := mem_writeMsgpackItems hos x hx
      exact ih x hx ho
  | map _ sorted _ _ ihk ihx =>
      rw [writeMsgpackValue, Except.bind_eq_ok] at hv
      obtain ⟨_, hcast, hv⟩ := hv
      rw [Except.map_eq_ok] at hv
      obtain ⟨os, hos, -⟩ := hv
      refine .map (castSize_eq_ok.mp hcast) sorted (fun f hf => ?_) fun f hf => ?_
      · obtain ⟨⟨o, ho⟩, -⟩ := mem_writeMsgpackFields hos f hf
        exact ihk f hf ho
      · obtain ⟨-, o, ho⟩ := mem_writeMsgpackFields hos f hf
        exact ihx f hf ho

/-! ## The round trip -/

/-- A value can be packed exactly if its strings, blobs, arrays and maps have fewer than
`2 ^ 32` bytes or elements; its packed form is then read back as the value, provided that
msgpack-c unpacks the object it packed.  A datetime is packed as the smallest signed
big-endian integer that holds its milliseconds. -/
theorem msgpack_roundTrip (codec : MsgpackC) {v : Dynamic} (hv : v.Within wholeMilliseconds)
    (inverse : ∀ o, v.writeMsgpackValue = .ok o → codec.unpack (codec.pack o) = some o) :
    ((∃ out, v.valueToMsgpackString codec = .ok out) ↔ v.Within msgpackLimits) ∧
    (v.Within msgpackLimits → ∃ out, v.valueToMsgpackString codec = .ok out ∧
      parseMsgpackValue codec out = .ok v.inMemory) ∧
    ∀ t, v = datetime t → ∃ T : IntType, T.signed = true ∧ T.InRange (totalMilliseconds t) ∧
      v.writeMsgpackValue = .ok (.ext 1 (T.bigEndian (totalMilliseconds t))) ∧
      ∀ S : IntType, S.signed = true → S.InRange (totalMilliseconds t) → T.width ≤ S.width := by
  refine ⟨⟨?_, ?_⟩, ?_, ?_⟩
  · rintro ⟨out, hout⟩
    rw [valueToMsgpackString, Except.map_eq_ok] at hout
    obtain ⟨o, ho, -⟩ := hout
    exact hv.of_writeMsgpackValue ho
  · intro h
    obtain ⟨o, ho, -⟩ := h.readMsgpackValue_write
    exact ⟨codec.pack o, by rw [valueToMsgpackString, ho]; rfl⟩
  · intro h
    obtain ⟨o, ho, hread⟩ := h.readMsgpackValue_write
    refine ⟨codec.pack o, by rw [valueToMsgpackString, ho]; rfl, ?_⟩
    rw [parseMsgpackValue, inverse o ho]
    exact hread
  · intro t ht
    subst ht
    cases hv with
    | datetime range limit =>
        obtain ⟨T, hs, hT, he, hmin⟩ :=
          MsgpackObject.ofDatetime_eq (inRange_totalMilliseconds range limit)
        exact ⟨T, hs, hT, by rw [writeMsgpackValue, he], hmin⟩

/-- msgpack-c on the extension object of type 1 with the one byte 1. -/
def oneMillisecondCodec : MsgpackC where
  pack _ := [0xd4, 1, 1]
  unpack bs := if bs = [0xd4, 1, 1] then some (.ext 1 [1]) else none

theorem msgpack_roundTrip_oneMillisecond :
    ∃ out, (datetime 1000).valueToMsgpackString oneMillisecondCodec = .ok out ∧
      parseMsgpackValue oneMillisecondCodec out = .ok (datetime 1000) := by
  have hv : (datetime 1000).Within wholeMilliseconds := .datetime (by decide) ⟨1, rfl⟩
  have hfits : (datetime 1000).Within msgpackLimits := .datetime (by decide) ⟨1, rfl⟩
  refine (msgpack_roundTrip oneMillisecondCodec hv ?_).2.1 hfits
  intro o ho
  cases ho
  rfl

/-- A string of `2 ^ 32` bytes has no packed form. -/
theorem not_packed_longString :
    (string (List.replicate (2 ^ 32) 0)).Within wholeMilliseconds ∧
      (string (List.replicate (2 ^ 32) 0)).writeMsgpackValue = .error .badNumericCast := by
  refine ⟨.string trivial, ?_⟩
  have hlong : ¬ (List.replicate (2 ^ 32) (0 : UInt8)).length < 2 ^ 32 := by
    rw [List.length_replicate]
    exact Nat.lt_irrefl _
  rw [writeMsgpackValue, castSize, if_neg hlong]
  rfl

end Dynamic
end Cradle
