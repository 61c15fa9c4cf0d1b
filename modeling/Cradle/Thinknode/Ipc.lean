import Cradle.Typing.MsgpackEncoding
import Cradle.Typing.Single

/-!
# The messages between the calculation supervisor and its providers

A message on the wire is a header of twelve bytes and a body.  The header tells the code
of the message and the length of the body; the length is measured by serializing the body
into a buffer that only counts.  Reading and writing are stated once for any kind of
messages, and then for the messages of the supervisor and of the providers.
-/

namespace Cradle.Ipc

/-! ## Messages -/

/-- `thinknode_supervisor_calculation_request`. -/
structure CalculationRequest where
  name : Bytes
  args : List Dynamic

/-- `thinknode_supervisor_message`. -/
inductive SupervisorMessage
  | function (request : CalculationRequest)
  | ping (code : Bytes)

/-- `thinknode_provider_registration`. -/
structure ProviderRegistration where
  protocol : ℤ
  pid : Bytes

/-- `thinknode_provider_progress_update`. -/
structure ProviderProgressUpdate where
  value : Double
  message : Bytes

/-- `thinknode_provider_failure`. -/
structure ProviderFailure where
  code : Bytes
  message : Bytes

/-- `thinknode_provider_message`. -/
inductive ProviderMessage
  | registration (registration : ProviderRegistration)
  | progress (progress : ProviderProgressUpdate)
  | pong (code : Bytes)
  | result (value : Dynamic)
  | failure (failure : ProviderFailure)

/-- `calc_message_code`. -/
inductive CalcMessageCode
  | register | function | progress | result | failure | ping | pong
  deriving DecidableEq, Repr

def CalcMessageCode.index : CalcMessageCode → ℕ
  | register => 0
  | function => 1
  | progress => 2
  | result => 3
  | failure => 4
  | ping => 5
  | pong => 6

/-- The exceptions of reading and writing.  `outOfBounds` is no exception: the source takes
an argument of the given length from the body without a check. -/
inductive IpcError
  | corruptData
  | invalidEnumValue (enumId : String) (value : ℤ)
  | ipcVersionMismatch (localVersion remoteVersion : ℤ)
  | msgpack (e : MsgpackError)
  | badNumericCast
  | endOfStream
  | outOfBounds
  deriving DecidableEq, Repr

/-! ## Headers -/

structure MessageHeader where
  ipcVersion : ℤ
  reservedA : ℤ
  code : ℤ
  reservedB : ℤ
  bodyLength : ℤ

def ipcMessageHeaderSize : ℕ := 12

/-- `deserialize_message_header`. -/
def deserializeMessageHeader : Decoder IpcError UInt8 MessageHeader := do
  let ipcVersion ← readInt .corruptData .uint8
  let reservedA ← readInt .corruptData .uint8
  let code ← readInt .corruptData .uint8
  let reservedB ← readInt .corruptData .uint8
  let bodyLength ← readInt .corruptData .uint64
  return ⟨ipcVersion, reservedA, code, reservedB, bodyLength⟩

/-- `serialize_message_header`. -/
def serializeMessageHeader (header : MessageHeader) : Bytes :=
  writeInt .uint8 header.ipcVersion ++ (writeInt .uint8 header.reservedA ++
    (writeInt .uint8 header.code ++ (writeInt .uint8 header.reservedB ++
      writeInt .uint64 header.bodyLength)))

/-! ## Messages of any kind -/

/-- What the functions for one kind of messages do: `get_message_code`, `serialize_message`
and `read_message_body`. -/
structure MessageKind (M : Type) where
  getMessageCode : M → CalcMessageCode
  serializeMessage : M → Except IpcError Bytes
  readMessageBody : ℤ → Bytes → Except IpcError M

section Streams
variable {M : Type} (kind : MessageKind M) (ipcVersion : ℤ)

/-- `write_message`: what goes out on the socket.  The size of the body is that of its
serialization. -/
def writeMessage (message : M) : Except IpcError Bytes :=
  (kind.serializeMessage message).map fun body =>
    serializeMessageHeader ⟨ipcVersion, 0, (kind.getMessageCode message).index, 0, body.length⟩
      ++ body

/-- `read_message`, from what comes in on the socket. -/
def readMessage : Decoder IpcError UInt8 M := do
  let headerBuffer ← Decoder.take .endOfStream ipcMessageHeaderSize
  let header ← liftM ((deserializeMessageHeader.run headerBuffer).map Prod.fst)
  if header.ipcVersion ≠ ipcVersion then
    throw (.ipcVersionMismatch ipcVersion header.ipcVersion)
  let body ← Decoder.take .endOfStream header.bodyLength.toNat
  liftM (kind.readMessageBody header.code body)

/-- One message after the other. -/
def writeMessages : List M → Except IpcError Bytes
  | [] => .ok []
  | m :: ms =>
      (writeMessage kind ipcVersion m).bind fun out => (writeMessages ms).map (out ++ ·)

end Streams

/-! ## The parts of bodies -/

/-- `write_string`, whose cast of the length may throw. -/
def writeText (t : IntType) (s : Bytes) : Except IpcError Bytes :=
  match writeString t s with
  | some out => .ok out
  | none => .error .badNumericCast

/-- `write_float` of a progress value. -/
def writeFloat (value : Double) : Bytes := writeInt .uint32 value.toSingle.bits.toNat

/-- `read_float`. -/
def readFloat : Decoder IpcError UInt8 Double := do
  let bits ← readInt .corruptData .uint32
  return Single.toDouble ⟨UInt32.ofNat bits.toNat⟩

section Codec
variable (codec : MsgpackC)

/-- `write_msgpack_value` into the buffer. -/
def writeValue (value : Dynamic) : Except IpcError Bytes :=
  match value.valueToMsgpackString codec with
  | .ok out => .ok out
  | .error e => .error (.msgpack e)

/-- `parse_msgpack_value` of a part of the body. -/
def parseValue (bs : Bytes) : Except IpcError Dynamic :=
  match Dynamic.parseMsgpackValue codec bs with
  | .ok value => .ok value
  | .error e => .error (.msgpack e)

/-- The arguments, each after its measured length. -/
def writeArgs : List Dynamic → Except IpcError Bytes
  | [] => .ok []
  | arg :: args =>
      (writeValue codec arg).bind fun out =>
        (writeArgs args).map ((writeInt .uint64 out.length ++ out) ++ ·)

/-- One argument. -/
def readArg : Decoder IpcError UInt8 Dynamic := do
  let argLength ← readInt .corruptData .uint64
  let data ← Decoder.take .outOfBounds argLength.toNat
  liftM (parseValue codec data)

/-- Read a message from its body; what the message leaves of the body is not looked at. -/
def decodeBody {M : Type} (d : Decoder IpcError UInt8 M) (body : Bytes) : Except IpcError M :=
  (d.run body).map Prod.fst

/-! ## The messages of the supervisor -/

namespace SupervisorMessage

def getMessageCode : SupervisorMessage → CalcMessageCode
  | function _ => .function
  | ping _ => .ping

/-- `serialize_message`. -/
def serializeMessage : SupervisorMessage → Except IpcError Bytes
  | function request =>
      (writeText .uint8 request.name).bind fun name =>
        if IntType.uint16.InRange request.args.length then
          (writeArgs codec request.args).map fun args =>
            name ++ (writeInt .uint16 request.args.length ++ args)
        else .error .badNumericCast
  | ping code => .ok code

def readFunction : Decoder IpcError UInt8 SupervisorMessage := do
  let name ← readSizedString .corruptData .uint8
  let nArgs ← readInt .corruptData .uint16
  let args ← Decoder.times (readArg codec) nArgs.toNat
  return function ⟨name, args⟩

def readPing : Decoder IpcError UInt8 SupervisorMessage := do
  let code ← readString .corruptData 32
  return ping code

/-- `read_message_body`. -/
def readMessageBody (code : ℤ) (body : Bytes) : Except IpcError SupervisorMessage :=
  match code with
  | 1 => decodeBody (readFunction codec) body
  | 5 => decodeBody readPing body
  | _ => .error (.invalidEnumValue "calc_message_code" code)

def kind : MessageKind SupervisorMessage where
  getMessageCode := getMessageCode
  serializeMessage := serializeMessage codec
  readMessageBody := readMessageBody codec

end SupervisorMessage

/-! ## The messages of a provider -/

namespace ProviderMessage

def getMessageCode : ProviderMessage → CalcMessageCode
  | registration _ => .register
  | pong _ => .pong
  | progress _ => .progress
  | result _ => .result
  | failure _ => .failure

/-- `serialize_message`.  The protocol of a registration is not written: it is zero. -/
def serializeMessage : ProviderMessage → Except IpcError Bytes
  | registration r => .ok (writeInt .uint16 0 ++ r.pid)
  | pong code => .ok code
  | progress p =>
      (writeText .uint16 p.message).map fun message => writeFloat p.value ++ message
  | result value => writeValue codec value
  | failure f =>
      (writeText .uint8 f.code).bind fun code =>
        (writeText .uint16 f.message).map fun message => code ++ message

def readRegistration : Decoder IpcError UInt8 ProviderMessage := do
  let protocol ← readInt .corruptData .uint16
  let pid ← readString .corruptData 32
  return registration ⟨protocol, pid⟩

def readPong : Decoder IpcError UInt8 ProviderMessage := do
  let pingCode ← readString .corruptData 32
  return pong pingCode

def readProgress : Decoder IpcError UInt8 ProviderMessage := do
  let value ← readFloat
  let message ← readSizedString .corruptData .uint16
  return progress ⟨value, message⟩

def readFailure : Decoder IpcError UInt8 ProviderMessage := do
  let code ← readSizedString .corruptData .uint8
  let message ← readSizedString .corruptData .uint16
  return failure ⟨code, message⟩

/-- `read_message_body`. -/
def readMessageBody (code : ℤ) (body : Bytes) : Except IpcError ProviderMessage :=
  match code with
  | 0 => decodeBody readRegistration body
  | 6 => decodeBody readPong body
  | 2 => decodeBody readProgress body
  | 3 => (parseValue codec body).map result
  | 4 => decodeBody readFailure body
  | _ => .error (.invalidEnumValue "calc_message_code" code)

def kind : MessageKind ProviderMessage where
  getMessageCode := getMessageCode
  serializeMessage := serializeMessage codec
  readMessageBody := readMessageBody codec

end ProviderMessage
end Codec

/-! ## One message on the wire -/

section Streams
variable {M : Type} {kind : MessageKind M} {ipcVersion : ℤ}

theorem length_serializeMessageHeader (header : MessageHeader) :
    (serializeMessageHeader header).length = ipcMessageHeaderSize := by
  simp [serializeMessageHeader, IntType.width, ipcMessageHeaderSize]

theorem readsBack_deserializeMessageHeader {header : MessageHeader}
    (hversion : IntType.uint8.InRange header.ipcVersion)
    (ha : IntType.uint8.InRange header.reservedA) (hcode : IntType.uint8.InRange header.code)
    (hb : IntType.uint8.InRange header.reservedB)
    (hlength : IntType.uint64.InRange header.bodyLength) :
    deserializeMessageHeader.ReadsBack (serializeMessageHeader header) header := by
  refine (readsBack_readInt _ hversion).bind ?_
  refine (readsBack_readInt _ ha).bind ?_
  refine (readsBack_readInt _ hcode).bind ?_
  refine (readsBack_readInt _ hb).bind ?_
  exact (readsBack_readInt _ hlength).map
    (MessageHeader.mk header.ipcVersion header.reservedA header.code header.reservedB)

theorem inRange_code (code : CalcMessageCode) : IntType.uint8.InRange code.index := by
  cases code <;> decide

/-- A message is read back from what was written for it, given that its body is. -/
theorem readsBack_readMessage (hversion : IntType.uint8.InRange ipcVersion) {m m' : M}
    {body : Bytes} (hbody : kind.serializeMessage m = .ok body) (hlength : body.length < 2 ^ 64)
    (hread : kind.readMessageBody (kind.getMessageCode m).index body = .ok m') :
    ∃ out, writeMessage kind ipcVersion m = .ok out ∧
      (readMessage kind ipcVersion).ReadsBack out m' := by
  let header : MessageHeader :=
    ⟨ipcVersion, 0, (kind.getMessageCode m).index, 0, body.length⟩
  have hzero : IntType.uint8.InRange 0 := by decide
  have hheader : deserializeMessageHeader.ReadsBack (serializeMessageHeader header) header :=
    readsBack_deserializeMessageHeader hversion hzero (inRange_code _) hzero
      ((IntType.inRange_unsigned rfl).mpr hlength)
  refine ⟨serializeMessageHeader header ++ body, by rw [writeMessage, hbody]; rfl, ?_⟩
  refine (Decoder.ReadsBack.take _ (length_serializeMessageHeader header)).bind ?_
  refine (Decoder.ReadsBack.lift (x := header) ?_).bind ?_
  · rw [hheader.run_eq]
    rfl
  · rw [if_neg (by simp [header])]
    exact (Decoder.ReadsBack.take _ (by simp [header])).bind_lift hread

/-- What can be read back one by one can be read back as a stream. -/
theorem readsBack_messages {ms : List M} {value : M → M}
    (h : ∀ m ∈ ms, ∃ out, writeMessage kind ipcVersion m = .ok out ∧
      (readMessage kind ipcVersion).ReadsBack out (value m)) :
    ∃ out, writeMessages kind ipcVersion ms = .ok out ∧
      (Decoder.times (readMessage kind ipcVersion) ms.length).ReadsBack out (ms.map value) := by
  induction ms with
  | nil => exact ⟨[], rfl, .pure []⟩
  | cons m ms ih =>
      obtain ⟨out, hout, hread⟩ := h m (by simp)
      obtain ⟨outs, houts, hreads⟩ := ih fun n hn => h n (by simp [hn])
      refine ⟨out ++ outs, by rw [writeMessages, hout, houts]; rfl, ?_⟩
      exact hread.bind (hreads.map _)

end Streams

/-! ## The parts of bodies, read back -/

/-- A progress value that a `float` can hold. -/
def IsSingle (value : Double) : Prop := ∃ x : Single, x.isNaN = false ∧ x.toDouble = value

theorem readsBack_readFloat {value : Double} (h : IsSingle value) :
    readFloat.ReadsBack (writeFloat value) value := by
  obtain ⟨x, hnan, rfl⟩ := h
  rw [writeFloat, Single.toSingle_toDouble hnan]
  have hbits : UInt32.ofNat (x.bits.toNat : ℤ).toNat = x.bits := by simp
  have hread := (readsBack_readInt IpcError.corruptData
    ((IntType.inRange_unsigned rfl).mpr x.bits.toNat_lt : IntType.uint32.InRange _)).map
      fun bits => Single.toDouble ⟨UInt32.ofNat bits.toNat⟩
  rwa [hbits] at hread

theorem readsBack_writeText {t : IntType} (ht : t.signed = false) {s : Bytes}
    (h : s.length < 256 ^ t.width) :
    ∃ out, writeText t s = .ok out ∧
      (readSizedString IpcError.corruptData t).ReadsBack out s := by
  have hout : writeString t s = some (writeInt t s.length ++ s) :=
    if_pos ((IntType.inRange_unsigned ht).mpr h)
  exact ⟨_, by rw [writeText, hout], readsBack_readSizedString _ hout⟩

theorem decodeBody_eq {M : Type} {d : Decoder IpcError UInt8 M} {body : Bytes} {m : M}
    (h : d.ReadsBack body m) : decodeBody d body = .ok m := by
  rw [decodeBody, h.run_eq]
  rfl

theorem lt_width_of_lt {n : ℕ} (h : n < 65536) : n < 256 ^ IntType.uint16.width := by
  rw [IntType.width]
  omega

section Codec
variable {codec : MsgpackC}

/-- msgpack-c unpacks what it packed for the value. -/
def Unpacks (codec : MsgpackC) (v : Dynamic) : Prop :=
  ∀ o, v.writeMsgpackValue = .ok o → codec.unpack (codec.pack o) = some o

theorem parseValue_writeValue {v : Dynamic} (hv : v.Within Dynamic.msgpackLimits)
    (hu : Unpacks codec v) :
    ∃ out, writeValue codec v = .ok out ∧ parseValue codec out = .ok v.inMemory := by
  obtain ⟨o, ho, hread⟩ := hv.readMsgpackValue_write
  refine ⟨codec.pack o, ?_, ?_⟩
  · rw [writeValue, Dynamic.valueToMsgpackString, ho]
    rfl
  · rw [parseValue, Dynamic.parseMsgpackValue, hu o ho]
    simp only [hread]

/-- The arguments are read back if their lengths fit into 64 bits. -/
theorem readsBack_writeArgs {args : List Dynamic}
    (h : ∀ x ∈ args, x.Within Dynamic.msgpackLimits ∧ Unpacks codec x) :
    ∃ out, writeArgs codec args = .ok out ∧ (out.length < 2 ^ 64 →
      (Decoder.times (readArg codec) args.length).ReadsBack out (args.map Dynamic.inMemory)) := by
  induction args with
  | nil => exact ⟨[], rfl, fun _ => .pure []⟩
  | cons x xs ih =>
      obtain ⟨out, hout, hparse⟩ := parseValue_writeValue (h x (by simp)).1 (h x (by simp)).2
      obtain ⟨outs, houts, hreads⟩ := ih fun y hy => h y (by simp [hy])
      refine ⟨(writeInt .uint64 out.length ++ out) ++ outs, ?_, fun hlength => ?_⟩
      · rw [writeArgs, hout, houts]
        rfl
      · simp only [List.length_append] at hlength
        have hrange : IntType.uint64.InRange out.length :=
          (IntType.inRange_unsigned rfl).mpr (by omega : out.length < 2 ^ 64)
        have harg : (readArg codec).ReadsBack (writeInt .uint64 out.length ++ out) x.inMemory :=
          (readsBack_readInt _ hrange).bind
            ((Decoder.ReadsBack.take _ (by simp)).bind_lift hparse)
        exact harg.bind ((hreads (by omega)).map _)

/-! ## Supervisor messages -/

namespace SupervisorMessage

/-- The message with its values copied to memory. -/
def inMemory : SupervisorMessage → SupervisorMessage
  | function request => function { request with args := request.args.map Dynamic.inMemory }
  | ping code => ping code

/-- The dynamic values in a message. -/
def values : SupervisorMessage → List Dynamic
  | function request => request.args
  | ping _ => []

/-- The limits of the format on the fields of a message. -/
def WithinLimits : SupervisorMessage → Prop
  | function request =>
      request.name.length < 256 ∧ request.args.length ≤ 65535 ∧
        ∀ x ∈ request.args, x.Within Dynamic.msgpackLimits
  | ping code => code.length = 32

theorem readMessageBody_serializeMessage {m : SupervisorMessage} (h : m.WithinLimits)
    (hu : ∀ x ∈ m.values, Unpacks codec x) :
    ∃ body, m.serializeMessage codec = .ok body ∧ (body.length < 2 ^ 64 →
      readMessageBody codec m.getMessageCode.index body = .ok m.inMemory) := by
  cases m with
  | function request =>
      obtain ⟨hname, hargs, hvalues⟩ := h
      obtain ⟨name, hwname, hrname⟩ := readsBack_writeText (t := .uint8) rfl hname
      obtain ⟨args, hwargs, hrargs⟩ :=
        readsBack_writeArgs fun x hx => ⟨hvalues x hx, hu x hx⟩
      have hcount : IntType.uint16.InRange request.args.length := by
        rw [IntType.inRange_unsigned rfl]
        exact lt_width_of_lt (by omega)
      refine ⟨name ++ (writeInt .uint16 request.args.length ++ args), ?_, fun hlength => ?_⟩
      · rw [serializeMessage, hwname, Except.bind, if_pos hcount, hwargs]
        rfl
      · simp only [List.length_append] at hlength
        apply decodeBody_eq (d := readFunction codec)
        refine hrname.bind ((readsBack_readInt _ hcount).bind ?_)
        exact (hrargs (by omega)).map fun args => function ⟨request.name, args⟩
  | ping code =>
      refine ⟨code, rfl, fun _ => ?_⟩
      exact decodeBody_eq (d := readPing) ((readsBack_readString _ h).map ping)

end SupervisorMessage

/-! ## Provider messages -/

namespace ProviderMessage

/-- The message with its values copied to memory. -/
def inMemory : ProviderMessage → ProviderMessage
  | result value => result value.inMemory
  | m => m

/-- The dynamic values in a message. -/
def values : ProviderMessage → List Dynamic
  | result value => [value]
  | _ => []

/-- The limits of the format on the fields of a message. -/
def WithinLimits : ProviderMessage → Prop
  | registration r => r.protocol = 0 ∧ r.pid.length = 32
  | progress p => IsSingle p.value ∧ p.message.length < 65536
  | pong code => code.length = 32
  | result value => value.Within Dynamic.msgpackLimits
  | failure f => f.code.length < 256 ∧ f.message.length < 65536

theorem readMessageBody_serializeMessage {m : ProviderMessage} (h : m.WithinLimits)
    (hu : ∀ x ∈ m.values, Unpacks codec x) :
    ∃ body, m.serializeMessage codec = .ok body ∧
      readMessageBody codec m.getMessageCode.index body = .ok m.inMemory := by
  cases m with
  | registration r =>
      obtain ⟨protocol, pid⟩ := r
      obtain ⟨hprotocol, hpid⟩ := h
      simp only at hprotocol hpid
      subst hprotocol
      have hzero : IntType.uint16.InRange 0 := by decide
      refine ⟨_, rfl, ?_⟩
      apply decodeBody_eq (d := readRegistration)
      refine (readsBack_readInt _ hzero).bind ?_
      exact (readsBack_readString _ hpid).map fun pid => registration ⟨0, pid⟩
  | progress p =>
      obtain ⟨hvalue, hmessage⟩ := h
      obtain ⟨message, hwmessage, hrmessage⟩ :=
        readsBack_writeText (t := .uint16) rfl (lt_width_of_lt hmessage)
      refine ⟨writeFloat p.value ++ message, ?_, ?_⟩
      · rw [serializeMessage, hwmessage]
        rfl
      · apply decodeBody_eq (d := readProgress)
        exact (readsBack_readFloat hvalue).bind
          (hrmessage.map fun message => progress ⟨p.value, message⟩)
  | pong code =>
      refine ⟨code, rfl, ?_⟩
      exact decodeBody_eq (d := readPong) ((readsBack_readString _ h).map pong)
  | result value =>
      obtain ⟨out, hout, hparse⟩ := parseValue_writeValue h (hu value (by simp [values]))
      exact ⟨out, hout, congrArg (Except.map result) hparse⟩
  | failure f =>
      obtain ⟨hcode, hmessage⟩ := h
      obtain ⟨code, hwcode, hrcode⟩ := readsBack_writeText (t := .uint8) rfl hcode
      obtain ⟨message, hwmessage, hrmessage⟩ :=
        readsBack_writeText (t := .uint16) rfl (lt_width_of_lt hmessage)
      refine ⟨code ++ message, ?_, ?_⟩
      · rw [serializeMessage, hwcode, hwmessage]
        rfl
      · apply decodeBody_eq (d := readFailure)
        exact hrcode.bind (hrmessage.map fun message => failure ⟨f.code, message⟩)

end ProviderMessage

/-! ## Streams of messages -/

theorem readsBack_supervisorMessage {ipcVersion : ℤ} (hversion : IntType.uint8.InRange ipcVersion)
    {m : SupervisorMessage} (h : m.WithinLimits) (hu : ∀ x ∈ m.values, Unpacks codec x)
    (hsize : ∀ body, m.serializeMessage codec = .ok body → body.length < 2 ^ 64) :
    ∃ out, writeMessage (SupervisorMessage.kind codec) ipcVersion m = .ok out ∧
      (readMessage (SupervisorMessage.kind codec) ipcVersion).ReadsBack out m.inMemory := by
  obtain ⟨body, hbody, hread⟩ := m.readMessageBody_serializeMessage h hu
  exact readsBack_readMessage hversion hbody (hsize body hbody) (hread (hsize body hbody))

theorem readsBack_providerMessage {ipcVersion : ℤ} (hversion : IntType.uint8.InRange ipcVersion)
    {m : ProviderMessage} (h : m.WithinLimits) (hu : ∀ x ∈ m.values, Unpacks codec x)
    (hsize : ∀ body, m.serializeMessage codec = .ok body → body.length < 2 ^ 64) :
    ∃ out, writeMessage (ProviderMessage.kind codec) ipcVersion m = .ok out ∧
      (readMessage (ProviderMessage.kind codec) ipcVersion).ReadsBack out m.inMemory := by
  obtain ⟨body, hbody, hread⟩ := m.readMessageBody_serializeMessage h hu
  exact readsBack_readMessage hversion hbody (hsize body hbody) hread

/-- A sequence of messages within the limits of the format, of the supervisor or of a
provider, is read back from the concatenation of their written forms, message by message
and to the last byte. -/
theorem messages_roundTrip {ipcVersion : ℤ} (hversion : IntType.uint8.InRange ipcVersion) :
    (∀ ms : List SupervisorMessage, (∀ m ∈ ms, m.WithinLimits ∧
        (∀ x ∈ m.values, Unpacks codec x) ∧
        ∀ body, m.serializeMessage codec = .ok body → body.length < 2 ^ 64) →
      ∃ out, writeMessages (SupervisorMessage.kind codec) ipcVersion ms = .ok out ∧
        (Decoder.times (readMessage (SupervisorMessage.kind codec) ipcVersion) ms.length).run out
          = .ok (ms.map SupervisorMessage.inMemory, [])) ∧
    ∀ ms : List ProviderMessage, (∀ m ∈ ms, m.WithinLimits ∧
        (∀ x ∈ m.values, Unpacks codec x) ∧
        ∀ body, m.serializeMessage codec = .ok body → body.length < 2 ^ 64) →
      ∃ out, writeMessages (ProviderMessage.kind codec) ipcVersion ms = .ok out ∧
        (Decoder.times (readMessage (ProviderMessage.kind codec) ipcVersion) ms.length).run out
          = .ok (ms.map ProviderMessage.inMemory, []) := by
  constructor
  · intro ms h
    obtain ⟨out, hout, hread⟩ := readsBack_messages fun m hm =>
      readsBack_supervisorMessage hversion (h m hm).1 (h m hm).2.1 (h m hm).2.2
    exact ⟨out, hout, hread.run_eq⟩
  · intro ms h
    obtain ⟨out, hout, hread⟩ := readsBack_messages fun m hm =>
      readsBack_providerMessage hversion (h m hm).1 (h m hm).2.1 (h m hm).2.2
    exact ⟨out, hout, hread.run_eq⟩

end Codec

/-- msgpack-c on nil. -/
def nilCodec : MsgpackC where
  pack _ := [0xc0]
  unpack bs := if bs = [0xc0] then some .nil else none

theorem messages_roundTrip_function :
    ∃ out, writeMessages (SupervisorMessage.kind nilCodec) 1 [.function ⟨[102], [.nil]⟩] = .ok out ∧
      (Decoder.times (readMessage (SupervisorMessage.kind nilCodec) 1) 1).run out
        = .ok ([.function ⟨[102], [.nil]⟩], []) := by
  have hversion : IntType.uint8.InRange 1 := by decide
  refine (@messages_roundTrip nilCodec 1 hversion).1 [.function ⟨[102], [.nil]⟩] ?_
  intro m hm
  rw [List.mem_singleton] at hm
  subst hm
  refine ⟨⟨by decide, by decide, ?_⟩, ?_, ?_⟩
  · intro x hx
    rw [List.mem_singleton] at hx
    subst hx
    exact .nil
  · intro x hx o ho
    rw [List.mem_singleton.mp hx] at ho
    cases ho
    rfl
  · intro body hbody
    cases hbody
    decide

end Cradle.Ipc
