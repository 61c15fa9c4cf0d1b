import Cradle.Lib.Mirror
import Cradle.Thinknode.Ipc

/-!
# What reading a message body touches

`read_message_body` reads through a pointer and a remaining size.  The model keeps both, and
records every access to the memory: what lies beyond the body is there to be read, and the
remaining size is a machine integer.  Pointers are counted from `data`.

The MessagePack library is outside the source: of its parser it is used how far it goes into
what it is given (`reach`), be it to decode bytes or to refer to them.
-/

namespace Cradle.Ipc

/-- An access through the buffer. -/
inductive Access
  | read (offset size : ℕ)
  | advance (offset distance remaining : ℕ)
  deriving DecidableEq, Repr

/-- The bytes are within the body, and the pointer does not go past its end. -/
def Access.Within (length : ℕ) : Access → Prop
  | read offset size => offset + size ≤ length
  | advance offset distance remaining => offset + distance ≤ length ∧ distance ≤ remaining

/-- `raw_input_buffer`, with the accesses so far, the last one first. -/
structure RawInputBuffer where
  ptr : ℕ
  size : UInt64
  footprint : List Access := []

/-- `raw_memory_reader`. -/
abbrev BufferReader := Reader IpcError RawInputBuffer

/-- The bytes at a pointer. -/
def bytesAt (memory : ℕ → UInt8) (ptr size : ℕ) : Bytes := (List.range' ptr size).map memory

namespace BufferReader

def touch (access : Access) : BufferReader Unit :=
  modify fun buffer => { buffer with footprint := access :: buffer.footprint }

/-- `raw_input_buffer::advance`. -/
def advance (distance : ℕ) : BufferReader Unit := do
  let buffer ← get
  touch (.advance buffer.ptr distance buffer.size.toNat)
  modify fun buffer =>
    { buffer with ptr := buffer.ptr + distance, size := buffer.size - .ofNat distance }

section Memory
variable (memory : ℕ → UInt8)

/-- `raw_input_buffer::read`. -/
def read (size : ℕ) : BufferReader Bytes := do
  let buffer ← get
  if buffer.size.toNat < size then throw .corruptData
  touch (.read buffer.ptr size)
  advance size
  return bytesAt memory buffer.ptr size

/-- `read_int`. -/
def readInt (t : IntType) : BufferReader ℤ := do
  let bs ← read memory t.width
  return t.ofBigEndian bs

/-- `read_float`. -/
def readFloat : BufferReader Double := do
  let bits ← readInt memory .uint32
  return Single.toDouble ⟨UInt32.ofNat bits.toNat⟩

/-- `read_string` of a given length. -/
def readString (length : ℕ) : BufferReader Bytes := read memory length

/-- `read_string` with a length field. -/
def readSizedString (t : IntType) : BufferReader Bytes := do
  let length ← readInt memory t
  readString memory length.toNat

section Codec
variable (codec : MsgpackC) (reach : Bytes → ℕ)

/-- `parse_msgpack_value` of `size` bytes at the pointer of the buffer. -/
def parseMsgpackValue (size : ℕ) : BufferReader Dynamic := do
  let buffer ← get
  let bs := bytesAt memory buffer.ptr size
  touch (.read buffer.ptr (reach bs))
  liftM (parseValue codec bs)

/-- One argument: neither the parser nor `advance` looks at the remaining size. -/
def readArg : BufferReader Dynamic := do
  let argLength ← readInt memory .uint64
  let arg ← parseMsgpackValue memory codec reach argLength.toNat
  advance argLength.toNat
  return arg

def readArgs : ℕ → BufferReader (List Dynamic)
  | 0 => return []
  | n + 1 => do
      let arg ← readArg memory codec reach
      let args ← readArgs n
      return arg :: args

/-- `read_message_body` of a message of the supervisor. -/
def readSupervisorBody (code : ℤ) : BufferReader SupervisorMessage :=
  match code with
  | 1 => do
      let name ← readSizedString memory .uint8
      let nArgs ← readInt memory .uint16
      let args ← readArgs memory codec reach nArgs.toNat
      return .function ⟨name, args⟩
  | 5 => do
      let code ← readString memory 32
      return .ping code
  | _ => throw (.invalidEnumValue "calc_message_code" code)

/-- `read_message_body` of a message of a provider. -/
def readProviderBody (code : ℤ) : BufferReader ProviderMessage :=
  match code with
  | 0 => do
      let protocol ← readInt memory .uint16
      let pid ← readString memory 32
      return .registration ⟨protocol, pid⟩
  | 6 => do
      let pingCode ← readString memory 32
      return .pong pingCode
  | 2 => do
      let value ← readFloat memory
      let message ← readSizedString memory .uint16
      return .progress ⟨value, message⟩
  | 3 => do
      let buffer ← get
      let value ← parseMsgpackValue memory codec reach buffer.size.toNat
      return .result value
  | 4 => do
      let code ← readSizedString memory .uint8
      let message ← readSizedString memory .uint16
      return .failure ⟨code, message⟩
  | _ => throw (.invalidEnumValue "calc_message_code" code)

end Codec
end Memory

/-! ## Reading with a check -/

section Checked
variable {memory : ℕ → UInt8} {length : ℕ} {buffer : RawInputBuffer}
  {excused : IpcError → Prop}

@[simp] theorem length_bytesAt (memory : ℕ → UInt8) (ptr size : ℕ) :
    (bytesAt memory ptr size).length = size := by simp [bytesAt]

theorem bytesAt_append (memory : ℕ → UInt8) (ptr n m : ℕ) :
    bytesAt memory ptr n ++ bytesAt memory (ptr + n) m = bytesAt memory ptr (n + m) := by
  rw [bytesAt, bytesAt, bytesAt, ← List.map_append, List.range'_append_1]

theorem take_bytesAt {ptr size n : ℕ} (h : n ≤ size) :
    (bytesAt memory ptr size).take n = bytesAt memory ptr n := by
  rw [← Nat.add_sub_cancel' h, ← bytesAt_append]
  exact List.take_left' (length_bytesAt ..)

theorem drop_bytesAt {ptr size n : ℕ} (h : n ≤ size) :
    (bytesAt memory ptr size).drop n = bytesAt memory (ptr + n) (size - n) := by
  rw [← Nat.add_sub_cancel' h, ← bytesAt_append, Nat.add_sub_cancel_left]
  exact List.drop_left' (length_bytesAt ..)

/-- No access was outside the body. -/
def StaysWithin (length : ℕ) (buffer : RawInputBuffer) : Prop :=
  ∀ access ∈ buffer.footprint, access.Within length

/-- The pointer and the remaining size are at a place in the body, and what remains is to be
read. -/
def bodyView (memory : ℕ → UInt8) (length : ℕ) : Reader.View RawInputBuffer UInt8 where
  good buffer := buffer.ptr + buffer.size.toNat = length ∧ StaysWithin length buffer
  safe := StaysWithin length
  rest buffer := bytesAt memory buffer.ptr buffer.size.toNat
  safe_of_good _ h := h.2

theorem exec_touch (access : Access) (buffer : RawInputBuffer) :
    (touch access).exec buffer
      = (.ok (), { buffer with footprint := access :: buffer.footprint }) := rfl

theorem exec_advance (distance : ℕ) (buffer : RawInputBuffer) :
    (advance distance).exec buffer =
      (.ok (), { ptr := buffer.ptr + distance, size := buffer.size - .ofNat distance,
                 footprint := .advance buffer.ptr distance buffer.size.toNat :: buffer.footprint }) :=
  rfl

theorem toNat_size_sub {size : UInt64} {n : ℕ} (h : n ≤ size.toNat) :
    (size - .ofNat n).toNat = size.toNat - n := by
  have hn : (UInt64.ofNat n).toNat = n := UInt64.toNat_ofNat_of_lt' (Nat.lt_of_le_of_lt h size.toNat_lt)
  rw [UInt64.toNat_sub_of_le _ _ (UInt64.le_iff_toNat_le.mpr (hn.symm ▸ h)), hn]

theorem exec_read {size : ℕ} :
    (read memory size).exec buffer =
      if buffer.size.toNat < size then (.error .corruptData, buffer)
      else (.ok (bytesAt memory buffer.ptr size),
        { ptr := buffer.ptr + size, size := buffer.size - .ofNat size,
          footprint := .advance buffer.ptr size buffer.size.toNat
            :: .read buffer.ptr size :: buffer.footprint }) := by
  rw [read, Reader.exec_bind_ok (Reader.exec_get buffer)]
  split <;> rfl

theorem mirrors_read (memory : ℕ → UInt8) (length size : ℕ) :
    Reader.Mirrors (bodyView memory length) excused (read memory size) (rawRead .corruptData size) := by
  intro buffer ⟨hplace, hwithin⟩
  have hlength : (bytesAt memory buffer.ptr buffer.size.toNat).length = buffer.size.toNat :=
    length_bytesAt ..
  rw [exec_read]
  by_cases hsize : buffer.size.toNat < size
  · have hrun : (rawRead .corruptData size).run ((bodyView memory length).rest buffer)
        = .error IpcError.corruptData := if_neg (by rw [bodyView, hlength]; omega)
    rw [hrun, if_pos hsize]
    refine ⟨fun x rest h => (nomatch h), fun e h => ?_⟩
    cases h
    exact .inr ⟨buffer, rfl, hwithin⟩
  · have hle : size ≤ buffer.size.toNat := Nat.not_lt.mp hsize
    have hrun : (rawRead IpcError.corruptData size).run ((bodyView memory length).rest buffer)
        = .ok (bytesAt memory buffer.ptr size,
            bytesAt memory (buffer.ptr + size) (buffer.size.toNat - size)) := by
      rw [← take_bytesAt hle, ← drop_bytesAt hle]
      exact if_pos (by rw [bodyView, hlength]; exact hle)
    rw [hrun, if_neg hsize]
    refine ⟨fun x rest h => ?_, fun e h => (nomatch h)⟩
    cases h
    refine ⟨_, rfl, ⟨?_, ?_⟩, ?_⟩
    · have hsub := toNat_size_sub hle
      dsimp only at hsub ⊢
      omega
    · intro access haccess
      rcases List.mem_cons.mp haccess with rfl | haccess
      · exact ⟨by omega, hle⟩
      · rcases List.mem_cons.mp haccess with rfl | haccess
        · exact (by omega : buffer.ptr + size ≤ length)
        · exact hwithin access haccess
    · exact congrArg (bytesAt memory (buffer.ptr + size)) (toNat_size_sub hle)

theorem mirrors_readInt (memory : ℕ → UInt8) (length : ℕ) (t : IntType) :
    Reader.Mirrors (bodyView memory length) excused (readInt memory t) (Cradle.readInt .corruptData t) :=
  (mirrors_read memory length t.width).bind fun _ => .pure _

theorem mirrors_readFloat (memory : ℕ → UInt8) (length : ℕ) :
    Reader.Mirrors (bodyView memory length) excused (readFloat memory) Ipc.readFloat :=
  (mirrors_readInt memory length .uint32).bind fun _ => .pure _

theorem mirrors_readString (memory : ℕ → UInt8) (length size : ℕ) :
    Reader.Mirrors (bodyView memory length) excused (readString memory size)
      (Cradle.readString .corruptData size) :=
  mirrors_read memory length size

theorem mirrors_readSizedString (memory : ℕ → UInt8) (length : ℕ) (t : IntType) :
    Reader.Mirrors (bodyView memory length) excused (readSizedString memory t)
      (Cradle.readSizedString .corruptData t) :=
  (mirrors_readInt memory length t).bind fun _ => mirrors_readString memory length _

end Checked

/-! ## Reading arguments -/

/-- How far the parser goes does not depend on what comes after, nor does what it yields. -/
structure Reaches (codec : MsgpackC) (reach : Bytes → ℕ) : Prop where
  le_length : ∀ bs, reach bs ≤ bs.length
  congr : ∀ bs bs', bs'.length = bs.length → bs'.take (reach bs) = bs.take (reach bs) →
    codec.unpack bs' = codec.unpack bs ∧ reach bs' = reach bs

section Arguments
variable (codec : MsgpackC) (reach : Bytes → ℕ)

/-- Of an argument of `argLength` bytes only `rest` is left, and the parser throws without
asking for more. -/
def GivesUp (rest : Bytes) (argLength : ℕ) : Prop :=
  ∃ beyond : Bytes, (rest ++ beyond).length = argLength ∧ reach (rest ++ beyond) ≤ rest.length ∧
    ∀ arg, parseValue codec (rest ++ beyond) ≠ .ok arg

/-- The first of `n` arguments that claims more than is left, if it is reached at all, is one
at which the parser gives up. -/
def ArgsWithin : ℕ → Bytes → Prop
  | 0, _ => True
  | n + 1, body =>
      ∀ argLength rest,
        (Cradle.readInt IpcError.corruptData .uint64).run body = .ok (argLength, rest) →
        if argLength.toNat ≤ rest.length then
          ∀ arg, parseValue codec (rest.take argLength.toNat) = .ok arg →
            ArgsWithin n (rest.drop argLength.toNat)
        else GivesUp codec reach rest argLength.toNat

/-- The arguments of a function, after its name and their number. -/
def FunctionWithin (body : Bytes) : Prop :=
  ∀ name rest,
    (Cradle.readSizedString IpcError.corruptData .uint8).run body = .ok (name, rest) →
    ∀ nArgs rest', (Cradle.readInt IpcError.corruptData .uint16).run rest = .ok (nArgs, rest') →
      ArgsWithin codec reach nArgs.toNat rest'

variable {codec reach} {memory : ℕ → UInt8} {length : ℕ} {buffer : RawInputBuffer}

/-- What is beyond the body does not matter. -/
theorem givesUp_iff (h : Reaches codec reach) {rest beyond : Bytes} {argLength : ℕ}
    (hlength : (rest ++ beyond).length = argLength) :
    GivesUp codec reach rest argLength ↔ reach (rest ++ beyond) ≤ rest.length ∧
      ∀ arg, parseValue codec (rest ++ beyond) ≠ .ok arg := by
  constructor
  · rintro ⟨other, hother, hreach, hfails⟩
    have hfront : (rest ++ beyond).take (reach (rest ++ other))
        = (rest ++ other).take (reach (rest ++ other)) := by
      rw [List.take_append_of_le_length hreach, List.take_append_of_le_length hreach]
    obtain ⟨hunpack, hsame⟩ := h.congr _ _ (hlength.trans hother.symm) hfront
    refine ⟨hsame ▸ hreach, fun arg hparse => hfails arg ?_⟩
    rw [← hparse, parseValue, parseValue, Dynamic.parseMsgpackValue, Dynamic.parseMsgpackValue,
      hunpack]
  · rintro ⟨hreach, hfails⟩
    exact ⟨beyond, hlength, hreach, hfails⟩

variable (codec reach memory) in
theorem exec_parseMsgpackValue (size : ℕ) (buffer : RawInputBuffer) :
    (parseMsgpackValue memory codec reach size).exec buffer =
      (parseValue codec (bytesAt memory buffer.ptr size),
        { buffer with
          footprint := .read buffer.ptr (reach (bytesAt memory buffer.ptr size))
            :: buffer.footprint }) := by
  rw [parseMsgpackValue, Reader.exec_bind_ok (Reader.exec_get buffer),
    Reader.exec_bind_ok (exec_touch _ buffer)]
  cases parseValue codec (bytesAt memory buffer.ptr size) <;> rfl

theorem StaysWithin.touch {access : Access} (h : StaysWithin length buffer)
    (haccess : access.Within length) :
    StaysWithin length { buffer with footprint := access :: buffer.footprint } := by
  intro other hother
  rcases List.mem_cons.mp hother with rfl | hother
  · exact haccess
  · exact h other hother

/-! ### The footprint only grows -/

/-- The accesses before are among those after. -/
def Grows (buffer buffer' : RawInputBuffer) : Prop := buffer.footprint ⊆ buffer'.footprint

instance : Std.Refl Grows := ⟨fun buffer => List.Subset.refl buffer.footprint⟩

instance : IsTrans RawInputBuffer Grows := ⟨fun _ _ _ h h' => List.Subset.trans h h'⟩

theorem StaysWithin.of_grows {buffer' : RawInputBuffer} (h : StaysWithin length buffer')
    (hgrows : Grows buffer buffer') : StaysWithin length buffer :=
  fun access haccess => h access (hgrows haccess)

theorem grows_advance (distance : ℕ) : Reader.Extends Grows (advance distance) :=
  fun buffer => List.subset_cons_self _ buffer.footprint

theorem grows_read (memory : ℕ → UInt8) (size : ℕ) : Reader.Extends Grows (read memory size) := by
  intro buffer
  rw [exec_read]
  split
  · exact List.Subset.refl _
  · exact List.Subset.trans (List.subset_cons_self _ _) (List.subset_cons_self _ _)

theorem grows_parseMsgpackValue (size : ℕ) :
    Reader.Extends Grows (parseMsgpackValue memory codec reach size) := by
  intro buffer
  rw [exec_parseMsgpackValue]
  exact List.subset_cons_self _ buffer.footprint

theorem grows_readArg : Reader.Extends Grows (readArg memory codec reach) := by
  refine .bind ((grows_read memory _).bind fun _ => .pure _) fun argLength => ?_
  exact (grows_parseMsgpackValue _).bind fun _ => (grows_advance _).bind fun _ => .pure _

theorem grows_readArgs (n : ℕ) : Reader.Extends Grows (readArgs memory codec reach n) := by
  induction n with
  | zero => exact .pure []
  | succ n ih => exact grows_readArg.bind fun _ => ih.bind fun _ => .pure _

/-! ### Exactly when the arguments stay within the body -/

theorem readArgs_succ (n : ℕ) :
    readArgs memory codec reach (n + 1) =
      readInt memory .uint64 >>= fun argLength =>
        parseMsgpackValue memory codec reach argLength.toNat >>= fun arg =>
          advance argLength.toNat >>= fun _ =>
            readArgs memory codec reach n >>= fun args => pure (arg :: args) := by
  simp only [readArgs, readArg, bind_assoc, pure_bind]

/-- The buffer after an argument for which the parser went as far as `reached`. -/
def pastArg (buffer : RawInputBuffer) (size reached : ℕ) : RawInputBuffer where
  ptr := buffer.ptr + size
  size := buffer.size - .ofNat size
  footprint :=
    .advance buffer.ptr size buffer.size.toNat :: .read buffer.ptr reached :: buffer.footprint

theorem exec_arg_ok {size : ℕ} {arg : Dynamic} {f : Dynamic → BufferReader (List Dynamic)}
    (hparse : parseValue codec (bytesAt memory buffer.ptr size) = .ok arg) :
    (parseMsgpackValue memory codec reach size >>= fun arg => advance size >>= fun _ => f arg).exec
        buffer =
      (f arg).exec (pastArg buffer size (reach (bytesAt memory buffer.ptr size))) := by
  have hexec := exec_parseMsgpackValue codec reach memory size buffer
  rw [hparse] at hexec
  rw [Reader.exec_bind_ok hexec, Reader.exec_bind_ok (exec_advance _ _)]
  rfl

theorem exec_arg_error {size : ℕ} {e : IpcError} {f : Dynamic → BufferReader (List Dynamic)}
    (hparse : parseValue codec (bytesAt memory buffer.ptr size) = .error e) :
    ((parseMsgpackValue memory codec reach size >>= fun arg => advance size >>= fun _ => f arg).exec
        buffer).2 =
      { buffer with
        footprint := .read buffer.ptr (reach (bytesAt memory buffer.ptr size))
          :: buffer.footprint } := by
  have hexec := exec_parseMsgpackValue codec reach memory size buffer
  rw [hparse] at hexec
  rw [Reader.exec_bind_error hexec]

/-- An argument that is left in full. -/
theorem good_pastArg {size reached : ℕ} (hgood : (bodyView memory length).good buffer)
    (hreached : reached ≤ size) (hsize : size ≤ buffer.size.toNat) :
    (bodyView memory length).good (pastArg buffer size reached) ∧
      (bodyView memory length).rest (pastArg buffer size reached)
        = ((bodyView memory length).rest buffer).drop size := by
  obtain ⟨hplace, hwithin⟩ := hgood
  have hsub : (pastArg buffer size reached).size.toNat = buffer.size.toNat - size :=
    toNat_size_sub hsize
  refine ⟨⟨?_, (hwithin.touch ?_).touch ⟨?_, hsize⟩⟩, ?_⟩
  · rw [hsub]
    exact (by omega : buffer.ptr + size + (buffer.size.toNat - size) = length)
  · exact (by omega : buffer.ptr + reached ≤ length)
  · omega
  · exact (congrArg (bytesAt memory (buffer.ptr + size)) hsub).trans (drop_bytesAt hsize).symm

/-- Advancing past the end stays in the footprint. -/
theorem not_staysWithin_pastArg {size reached : ℕ} {m : BufferReader (List Dynamic)}
    (hm : Reader.Extends Grows m) (hsize : buffer.size.toNat < size) :
    ¬ StaysWithin length (m.exec (pastArg buffer size reached)).2 := by
  intro h
  have hadvance := (h.of_grows (hm _)) _ List.mem_cons_self
  exact absurd hadvance.2 (Nat.not_le.mpr hsize)

theorem staysWithin_touch_read {reached : ℕ} (hgood : (bodyView memory length).good buffer) :
    StaysWithin length { buffer with footprint := .read buffer.ptr reached :: buffer.footprint } ↔
      reached ≤ buffer.size.toNat := by
  obtain ⟨hplace, hwithin⟩ := hgood
  constructor
  · intro h
    have hread : buffer.ptr + reached ≤ length := h _ List.mem_cons_self
    omega
  · intro h
    exact hwithin.touch (by omega : buffer.ptr + reached ≤ length)

/-- One argument, and what is read after it. -/
theorem staysWithin_arg_iff (h : Reaches codec reach) {size : ℕ}
    {f : Dynamic → BufferReader (List Dynamic)} {P : Bytes → Prop}
    (hgood : (bodyView memory length).good buffer) (hgrows : ∀ arg, Reader.Extends Grows (f arg))
    (hf : ∀ arg buffer', (bodyView memory length).good buffer' →
      (StaysWithin length ((f arg).exec buffer').2 ↔ P ((bodyView memory length).rest buffer'))) :
    StaysWithin length
      ((parseMsgpackValue memory codec reach size >>= fun arg =>
        advance size >>= fun _ => f arg).exec buffer).2 ↔
      if size ≤ ((bodyView memory length).rest buffer).length then
        ∀ arg, parseValue codec (((bodyView memory length).rest buffer).take size) = .ok arg →
          P (((bodyView memory length).rest buffer).drop size)
      else GivesUp codec reach ((bodyView memory length).rest buffer) size := by
  have hlength : ((bodyView memory length).rest buffer).length = buffer.size.toNat :=
    length_bytesAt ..
  have hreach := h.le_length (bytesAt memory buffer.ptr size)
  rw [length_bytesAt] at hreach
  split
  case isTrue hsize =>
      rw [hlength] at hsize
      have htake : ((bodyView memory length).rest buffer).take size
          = bytesAt memory buffer.ptr size := take_bytesAt hsize
      rw [htake]
      cases hparse : parseValue codec (bytesAt memory buffer.ptr size) with
      | error e =>
          rw [exec_arg_error hparse, staysWithin_touch_read hgood]
          exact iff_of_true (Nat.le_trans hreach hsize) fun arg harg => nomatch harg
      | ok arg =>
          obtain ⟨hgood', hrest⟩ := good_pastArg hgood hreach hsize
          rw [exec_arg_ok hparse, hf arg _ hgood', hrest]
          exact ⟨fun hP _ _ => hP, fun hP => hP arg rfl⟩
  case isFalse hsize =>
      rw [hlength, Nat.not_le] at hsize
      have hbytes : (bodyView memory length).rest buffer
            ++ bytesAt memory (buffer.ptr + buffer.size.toNat) (size - buffer.size.toNat)
          = bytesAt memory buffer.ptr size := by
        rw [bodyView, bytesAt_append, Nat.add_sub_cancel' (Nat.le_of_lt hsize)]
      rw [givesUp_iff h ((congrArg List.length hbytes).trans (length_bytesAt ..)), hbytes, hlength]
      cases hparse : parseValue codec (bytesAt memory buffer.ptr size) with
      | error e =>
          rw [exec_arg_error hparse, staysWithin_touch_read hgood]
          exact (and_iff_left fun arg harg => nomatch harg).symm
      | ok arg =>
          rw [exec_arg_ok hparse]
          refine iff_of_false (not_staysWithin_pastArg (hgrows arg) hsize) ?_
          exact fun hgives => hgives.2 arg rfl

theorem staysWithin_readArgs_iff (h : Reaches codec reach) (n : ℕ)
    (hgood : (bodyView memory length).good buffer) :
    StaysWithin length ((readArgs memory codec reach n).exec buffer).2 ↔
      ArgsWithin codec reach n ((bodyView memory length).rest buffer) := by
  induction n generalizing buffer with
  | zero => exact iff_of_true hgood.2 trivial
  | succ n ih =>
      rw [readArgs_succ, ArgsWithin]
      refine (mirrors_readInt memory length .uint64).safe_bind_iff hgood fun argLength b hb => ?_
      refine staysWithin_arg_iff h hb (fun arg => (grows_readArgs n).bind fun _ => .pure _) ?_
      intro arg b' hb'
      rw [Reader.exec_map_snd]
      exact ih hb'

/-! ## Reading a body -/

def start (length : UInt64) : RawInputBuffer where
  ptr := 0
  size := length

theorem good_start (memory : ℕ → UInt8) (length : UInt64) :
    (bodyView memory length.toNat).good (start length) :=
  ⟨Nat.zero_add _, fun _ haccess => nomatch haccess⟩

/-! ### Refinement

What the source reads through its buffer is what the decoders read, unless an argument claims
more than is left.
-/

theorem mirrors_readArg (h : Reaches codec reach) :
    Reader.Mirrors (bodyView memory length) (· = IpcError.outOfBounds)
      (readArg memory codec reach) (Ipc.readArg codec) := by
  refine (mirrors_readInt memory length .uint64).bind fun argLength buffer hgood => ?_
  have hlength : ((bodyView memory length).rest buffer).length = buffer.size.toNat :=
    length_bytesAt ..
  have hreach := h.le_length (bytesAt memory buffer.ptr argLength.toNat)
  rw [length_bytesAt] at hreach
  by_cases hsize : argLength.toNat ≤ buffer.size.toNat
  · obtain ⟨hgood', hrest⟩ := good_pastArg hgood hreach hsize
    have htake : ((bodyView memory length).rest buffer).take argLength.toNat
        = bytesAt memory buffer.ptr argLength.toNat := take_bytesAt hsize
    have hrun : (Decoder.take IpcError.outOfBounds argLength.toNat).run
          ((bodyView memory length).rest buffer)
        = .ok (bytesAt memory buffer.ptr argLength.toNat,
            ((bodyView memory length).rest buffer).drop argLength.toNat) := by
      rw [← htake]
      exact if_pos (hlength.symm ▸ hsize)
    have hdecode : (Decoder.take IpcError.outOfBounds argLength.toNat >>= fun data =>
          (liftM (parseValue codec data) : Decoder IpcError UInt8 Dynamic)).run
          ((bodyView memory length).rest buffer)
        = (parseValue codec (bytesAt memory buffer.ptr argLength.toNat)).map
            (·, ((bodyView memory length).rest buffer).drop argLength.toNat) := by
      rw [StateT.run_bind, hrun]
      change (liftM (parseValue codec (bytesAt memory buffer.ptr argLength.toNat)) :
        Decoder IpcError UInt8 Dynamic).run _ = _
      cases parseValue codec (bytesAt memory buffer.ptr argLength.toNat) <;> rfl
    have hexec := exec_parseMsgpackValue codec reach memory argLength.toNat buffer
    rw [hdecode]
    cases hparse : parseValue codec (bytesAt memory buffer.ptr argLength.toNat) with
    | error e =>
        rw [hparse] at hexec
        refine ⟨fun x rest hok => (nomatch hok), fun e' herror => .inr ?_⟩
        cases herror
        refine ⟨_, Reader.exec_bind_error hexec, ?_⟩
        exact (staysWithin_touch_read hgood).mpr (Nat.le_trans hreach hsize)
    | ok arg =>
        rw [hparse] at hexec
        refine ⟨fun x rest hok => ?_, fun e' herror => (nomatch herror)⟩
        cases hok
        refine ⟨_, ?_, hgood', hrest⟩
        rw [Reader.exec_bind_ok hexec, Reader.exec_bind_ok (exec_advance _ _)]
        rfl
  · have hrun : (Decoder.take IpcError.outOfBounds argLength.toNat).run
          ((bodyView memory length).rest buffer) = .error .outOfBounds :=
      if_neg (hlength.symm ▸ hsize)
    rw [StateT.run_bind, hrun]
    refine ⟨fun x rest hok => (nomatch hok), fun e herror => ?_⟩
    cases herror
    exact .inl rfl

theorem mirrors_readArgs (h : Reaches codec reach) (n : ℕ) :
    Reader.Mirrors (bodyView memory length) (· = IpcError.outOfBounds)
      (readArgs memory codec reach n) (Decoder.times (Ipc.readArg codec) n) :=
  (mirrors_readArg h).times rfl (fun _ => rfl) n

/-- A body that is read like by a decoder. -/
theorem decodeBody_outcome {M : Type} {excused : IpcError → Prop} {m : BufferReader M}
    {d : Decoder IpcError UInt8 M} {length : UInt64}
    (hm : Reader.Mirrors (bodyView memory length.toNat) excused m d)
    (hexcused : ∀ e, decodeBody d (bytesAt memory 0 length.toNat) = .error e → ¬ excused e) :
    (m.exec (start length)).1 = decodeBody d (bytesAt memory 0 length.toNat) ∧
      StaysWithin length.toNat (m.exec (start length)).2 := by
  refine hm.outcome (good_start memory length) fun e hrun => hexcused e ?_
  have hrun : d.run (bytesAt memory 0 length.toNat) = .error e := hrun
  rw [decodeBody, hrun]
  rfl

/-- The message read, or the exception. -/
theorem readSupervisorBody_outcome (h : Reaches codec reach) (memory : ℕ → UInt8)
    (length : UInt64) (code : ℤ)
    (hfits : SupervisorMessage.readMessageBody codec code (bytesAt memory 0 length.toNat)
      ≠ .error .outOfBounds) :
    ((readSupervisorBody memory codec reach code).exec (start length)).1
        = SupervisorMessage.readMessageBody codec code (bytesAt memory 0 length.toNat) ∧
      StaysWithin length.toNat
        ((readSupervisorBody memory codec reach code).exec (start length)).2 := by
  have hexcused : ∀ e, SupervisorMessage.readMessageBody codec code
      (bytesAt memory 0 length.toNat) = .error e → ¬ e = .outOfBounds := by
    rintro e he rfl
    exact hfits he
  unfold SupervisorMessage.readMessageBody at hexcused ⊢
  split at hexcused
  case h_1 =>
      rw [readSupervisorBody]
      refine decodeBody_outcome ?_ hexcused
      refine (mirrors_readSizedString memory _ .uint8).bind fun name => ?_
      refine (mirrors_readInt memory _ .uint16).bind fun nArgs => ?_
      exact (mirrors_readArgs h _).bind fun args => .pure _
  case h_2 =>
      rw [readSupervisorBody]
      exact decodeBody_outcome ((mirrors_readString memory _ 32).bind fun code => .pure _) hexcused
  case h_3 =>
      simp only [readSupervisorBody]
      exact ⟨rfl, (good_start memory length).2⟩

theorem readProviderBody_outcome (h : Reaches codec reach) (memory : ℕ → UInt8)
    (length : UInt64) (code : ℤ) :
    ((readProviderBody memory codec reach code).exec (start length)).1
        = ProviderMessage.readMessageBody codec code (bytesAt memory 0 length.toNat) ∧
      StaysWithin length.toNat
        ((readProviderBody memory codec reach code).exec (start length)).2 := by
  have hchecked {M : Type} {m : BufferReader M} {d : Decoder IpcError UInt8 M}
      (hm : Reader.Mirrors (bodyView memory length.toNat) (fun _ => False) m d) :=
    decodeBody_outcome hm fun _ _ => id
  unfold ProviderMessage.readMessageBody
  split
  case h_1 =>
      rw [readProviderBody]
      refine hchecked ((mirrors_readInt memory _ .uint16).bind fun protocol => ?_)
      exact (mirrors_readString memory _ 32).bind fun pid => .pure _
  case h_2 =>
      rw [readProviderBody]
      exact hchecked ((mirrors_readString memory _ 32).bind fun pingCode => .pure _)
  case h_3 =>
      rw [readProviderBody]
      refine hchecked ((mirrors_readFloat memory _).bind fun value => ?_)
      exact (mirrors_readSizedString memory _ .uint16).bind fun message => .pure _
  case h_4 =>
      -- The parser is given exactly what is left.
      have hreach := h.le_length (bytesAt memory 0 length.toNat)
      rw [length_bytesAt] at hreach
      have hexec := exec_parseMsgpackValue codec reach memory length.toNat (start length)
      have hwithin := (staysWithin_touch_read (good_start memory length)).mpr hreach
      rw [readProviderBody, Reader.exec_bind_ok (Reader.exec_get (start length)),
        Reader.exec_map_snd]
      change (Reader.exec (parseMsgpackValue memory codec reach length.toNat >>= fun value =>
        pure (ProviderMessage.result value)) (start length)).1 = _ ∧
        StaysWithin _ ((parseMsgpackValue memory codec reach length.toNat).exec (start length)).2
      rw [hexec]
      refine ⟨?_, hwithin⟩
      change _ = (parseValue codec (bytesAt memory (start length).ptr length.toNat)).map _
      cases hparse : parseValue codec (bytesAt memory (start length).ptr length.toNat) with
      | error e =>
          rw [hparse] at hexec
          rw [Reader.exec_bind_error hexec]
          rfl
      | ok value =>
          rw [hparse] at hexec
          rw [Reader.exec_bind_ok hexec]
          rfl
  case h_5 =>
      rw [readProviderBody]
      refine hchecked ((mirrors_readSizedString memory _ .uint8).bind fun code => ?_)
      exact (mirrors_readSizedString memory _ .uint16).bind fun message => .pure _
  case h_6 =>
      simp only [readProviderBody]
      exact ⟨rfl, (good_start memory length).2⟩

/-! ### Exactly when a body is not left -/

theorem staysWithin_readSupervisorBody_iff (h : Reaches codec reach) (memory : ℕ → UInt8)
    (length : UInt64) (code : ℤ) :
    StaysWithin length.toNat ((readSupervisorBody memory codec reach code).exec (start length)).2 ↔
      (code = 1 → FunctionWithin codec reach (bytesAt memory 0 length.toNat)) := by
  by_cases hcode : code = 1
  · subst hcode
    have hgood := good_start memory length
    refine Iff.trans ?_ (imp_iff_right rfl).symm
    refine (mirrors_readSizedString memory _ .uint8).safe_bind_iff hgood fun name b hb => ?_
    refine (mirrors_readInt memory _ .uint16).safe_bind_iff hb fun nArgs b' hb' => ?_
    refine Iff.trans ?_ (staysWithin_readArgs_iff h nArgs.toNat hb')
    rw [← Reader.exec_map_snd _ fun args => SupervisorMessage.function ⟨name, args⟩]
    rfl
  · refine iff_of_true ?_ fun h => absurd h hcode
    unfold readSupervisorBody
    split
    case h_1 => exact absurd rfl hcode
    case h_2 =>
        have hread : Reader.Mirrors (bodyView memory length.toNat) (fun _ => False)
            (readString memory 32) (Cradle.readString .corruptData 32) :=
          mirrors_readString memory length.toNat 32
        have hm := hread.bind fun code => Reader.Mirrors.pure (SupervisorMessage.ping code)
        exact (decodeBody_outcome hm fun _ _ => id).2
    case h_3 => exact (good_start memory length).2

/-- Only the arguments of a function can lead out of the body. -/
theorem readMessageBody_staysWithin_iff (h : Reaches codec reach) (memory : ℕ → UInt8)
    (length : UInt64) (code : ℤ) :
    StaysWithin length.toNat
        ((readSupervisorBody memory codec reach code).exec (start length)).2 ∧
      StaysWithin length.toNat
        ((readProviderBody memory codec reach code).exec (start length)).2 ↔
      (code = 1 → FunctionWithin codec reach (bytesAt memory 0 length.toNat)) := by
  rw [← staysWithin_readSupervisorBody_iff h]
  exact and_iff_left (readProviderBody_outcome h memory length code).2

/-- A parser of the integers up to 127, each in one byte. -/
def fixintCodec : MsgpackC where
  pack
    | .positiveInteger n => [UInt8.ofNat n]
    | _ => []
  unpack
    | b :: _ => if b < 0x80 then some (.positiveInteger b.toNat) else none
    | [] => none

def fixintReach (bs : Bytes) : ℕ := min 1 bs.length

theorem reaches_fixint : Reaches fixintCodec fixintReach where
  le_length bs := Nat.min_le_right 1 bs.length
  congr bs bs' hlength htake := by
    cases bs with
    | nil => rw [List.length_eq_zero_iff.mp hlength]; exact ⟨rfl, rfl⟩
    | cons b bs =>
        cases bs' with
        | nil => exact nomatch hlength
        | cons b' bs' =>
            have hreach : fixintReach (b :: bs) = 1 := by simp [fixintReach]
            have hreach' : fixintReach (b' :: bs') = 1 := by simp [fixintReach]
            rw [hreach] at htake
            cases htake
            exact ⟨rfl, hreach'.trans hreach.symm⟩

/-- The body of a function without a name and with one argument. -/
def oneArgBody (argLength arg : UInt8) : Bytes := [0, 0, 1, 0, 0, 0, 0, 0, 0, 0, argLength, arg]

theorem staysWithin_oneArg :
    let memory : ℕ → UInt8 := fun i => (oneArgBody 1 5).getD i 0
    StaysWithin 12 ((readSupervisorBody memory fixintCodec fixintReach 1).exec (start 12)).2 := by
  intro memory
  refine ((readMessageBody_staysWithin_iff reaches_fixint memory 12 1).mpr fun _ => ?_).1
  intro name rest hname nArgs rest' hnArgs
  obtain ⟨rfl, rfl⟩ : [] = name ∧ [0, 1, 0, 0, 0, 0, 0, 0, 0, 1, 5] = rest :=
    Prod.mk.inj (Except.ok.inj hname)
  obtain ⟨rfl, rfl⟩ : 1 = nArgs ∧ [0, 0, 0, 0, 0, 0, 0, 1, 5] = rest' :=
    Prod.mk.inj (Except.ok.inj hnArgs)
  intro argLength rest hlength
  obtain ⟨rfl, rfl⟩ : 1 = argLength ∧ [5] = rest := Prod.mk.inj (Except.ok.inj hlength)
  exact fun _ _ => trivial

/-- The argument claims two bytes where one is left: the parser is content with that one, and
`advance` goes past the end. -/
theorem oneArg_leaves_body :
    let memory : ℕ → UInt8 := fun i => (oneArgBody 2 5).getD i 0
    Reaches fixintCodec fixintReach ∧
      ¬ StaysWithin 12
        ((readSupervisorBody memory fixintCodec fixintReach 1).exec (start 12)).2 := by
  refine ⟨reaches_fixint, fun h => ?_⟩
  have hadvance := h (.advance 11 2 1) (by decide)
  exact absurd hadvance.2 (by decide)

end Arguments
end BufferReader
end Cradle.Ipc
