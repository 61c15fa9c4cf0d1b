import Cradle.Typing.MsgpackEncoding

/-!
# Blobs in requests and results

Requests are serialized with cereal, results with msgpack, and both can describe a blob
by the file its owner maps.  The reader maps that file again and makes a blob that points
into it.  The file system is a parameter: the contents of the files that exist.
-/

namespace Cradle

/-- Where the bytes of a blob are: in plain memory, or in a part of a mapped file. -/
inductive BlobView
  | inline (bytes : Bytes)
  | mapped (path : Bytes) (offset size : ℕ)

/-- The exceptions of serialization. -/
inductive BlobError
  | lengthError (what : String)
  | typeError
  | cannotMap
  | archive
  deriving DecidableEq, Repr

/-- The values that an archive holds under their names. -/
inductive ArchiveValue
  | boolean (b : Bool)
  | integer (i : ℤ)
  | string (s : Bytes)
  | binary (bs : Bytes)

namespace BlobView

section Files
variable (files : Bytes → Option Bytes)

/-- The bytes a blob shows; there are none where it points outside of its mapping. -/
def bytes : BlobView → Option Bytes
  | inline bs => some bs
  | mapped path offset size =>
      (files path).bind fun contents =>
        if offset + size ≤ contents.length then some ((contents.drop offset).take size) else none

/-- A mapped blob covers a part of its file.  A file that is mapped is not empty, and the
length of its path is far below 32 bits. -/
def Valid : BlobView → Prop
  | inline _ => True
  | mapped path offset size =>
      path.length < 2 ^ 32 ∧ ∃ contents, files path = some contents ∧ contents ≠ [] ∧
        offset + size ≤ contents.length

/-- `blob_file_reader`: the size of the mapped file. -/
def blobFileReader (path : Bytes) : Except BlobError ℕ :=
  match files path with
  | some [] | none => .error .cannotMap
  | some contents => .ok contents.length

/-! ## cereal -/

/-- `save`. -/
def save : BlobView → List (String × ArchiveValue)
  | mapped path offset _ =>
      [("as_file", .boolean true), ("path", .string path), ("offset", .integer offset)]
  | inline bs =>
      [("as_file", .boolean false), ("size", .integer bs.length), ("blob", .binary bs)]

/-- `load`.  The blob made for a file has the size of the file. -/
def load : List (String × ArchiveValue) → Except BlobError BlobView
  | [("as_file", .boolean true), ("path", .string path), ("offset", .integer offset)] =>
      (blobFileReader files path).map fun size => mapped path offset.toNat size
  | [("as_file", .boolean false), ("size", .integer size), ("blob", .binary bs)] =>
      if size = bs.length then .ok (inline bs) else .error .archive
  | _ => .error .archive

/-- Loading what was saved yields a blob with the same bytes. -/
def CerealKeeps (b : BlobView) : Prop :=
  ∃ b', load files b.save = .ok b' ∧ ∃ bs, b.bytes files = some bs ∧ b'.bytes files = some bs

/-! ## msgpack -/

/-- `pack`; the number that stands for the length of the path has 32 bits. -/
def pack (allowBlobFiles : Bool) (b : BlobView) : Except BlobError MsgpackObject :=
  match b, allowBlobFiles with
  | mapped path offset size, true =>
      .ok (.array [.str (path.take (path.length % 2 ^ 32)), .positiveInteger offset,
        .positiveInteger size])
  | b, _ =>
      match b.bytes files with
      | none => .error .cannotMap
      | some bs =>
          if 2 ^ 32 ≤ bs.length then .error (.lengthError "blob size >= 4GB") else .ok (.bin bs)

/-- `convert`. -/
def convert : MsgpackObject → Except BlobError BlobView
  | .array [.str name, .positiveInteger offset, .positiveInteger size] =>
      (blobFileReader files name).map fun _ => mapped name offset size
  | .bin bs => .ok (inline bs)
  | _ => .error .typeError

/-- Converting what was packed yields a blob with the same bytes. -/
def MsgpackKeeps (b : BlobView) : Prop :=
  ∃ o b', b.pack files true = .ok o ∧ convert files o = .ok b' ∧
    ∃ bs, b.bytes files = some bs ∧ b'.bytes files = some bs

end Files

section Results
variable {files : Bytes → Option Bytes} {path contents : Bytes} {offset size : ℕ}

theorem blobFileReader_eq (hfile : files path = some contents) (hne : contents ≠ []) :
    blobFileReader files path = .ok contents.length := by
  rw [blobFileReader, hfile]
  cases contents with
  | nil => exact absurd rfl hne
  | cons b bs => rfl

theorem bytes_mapped (hfile : files path = some contents) (h : offset + size ≤ contents.length) :
    (mapped path offset size).bytes files = some ((contents.drop offset).take size) := by
  rw [bytes, hfile, Option.bind_some, if_pos h]

theorem cerealKeeps_inline (bs : Bytes) : (inline bs).CerealKeeps files :=
  ⟨inline bs, if_pos rfl, bs, rfl, rfl⟩

/-- A blob that covers the whole of its file is the same after cereal. -/
theorem cerealKeeps_wholeFile (hfile : files path = some contents) (hne : contents ≠ []) :
    (mapped path 0 contents.length).CerealKeeps files := by
  have hbytes : (mapped path 0 contents.length).bytes files
      = some ((contents.drop 0).take contents.length) :=
    bytes_mapped hfile (Nat.le_of_eq (Nat.zero_add contents.length))
  refine ⟨mapped path 0 contents.length, ?_, _, hbytes, hbytes⟩
  simp only [save, load, blobFileReader_eq hfile hne]
  rfl

/-- A part of a file is the same part after msgpack. -/
theorem msgpackKeeps_mapped (h : (mapped path offset size).Valid files) :
    (mapped path offset size).MsgpackKeeps files := by
  obtain ⟨hpath, contents, hfile, hne, hsize⟩ := h
  have hbytes := bytes_mapped hfile hsize
  refine ⟨_, mapped path offset size, rfl, ?_, _, hbytes, hbytes⟩
  rw [Nat.mod_eq_of_lt hpath, List.take_length, convert, blobFileReader_eq hfile hne]
  rfl

theorem msgpackKeeps_inline {bs : Bytes} :
    (inline bs).MsgpackKeeps files ↔ bs.length < 2 ^ 32 := by
  have hpack : (inline bs).pack files true =
      if 2 ^ 32 ≤ bs.length then .error (.lengthError "blob size >= 4GB") else .ok (.bin bs) := rfl
  constructor
  · rintro ⟨o, b', ho, -⟩
    by_contra hlong
    rw [hpack, if_pos (Nat.not_lt.mp hlong)] at ho
    cases ho
  · intro h
    refine ⟨.bin bs, inline bs, ?_, rfl, bs, rfl, rfl⟩
    rw [hpack, if_neg (Nat.not_le.mpr h)]

/-- cereal keeps every inline blob and every blob that covers its file.  msgpack keeps every
blob in a file, whatever part of it the blob covers, and the inline blobs of fewer than
`2 ^ 32` bytes; for a larger one it throws. -/
theorem blob_roundTrip (files : Bytes → Option Bytes) {b : BlobView} (h : b.Valid files) :
    (∀ bs, b = inline bs → b.CerealKeeps files) ∧
    (∀ path contents, files path = some contents → b = mapped path 0 contents.length →
      b.CerealKeeps files) ∧
    (b.MsgpackKeeps files ↔ ∀ bs, b = inline bs → bs.length < 2 ^ 32) ∧
    ∀ bs, b = inline bs → 2 ^ 32 ≤ bs.length →
      b.pack files true = .error (.lengthError "blob size >= 4GB") := by
  cases b with
  | inline bs =>
      refine ⟨fun _ _ => cerealKeeps_inline bs, fun _ _ _ he => (by cases he), ?_, ?_⟩
      · rw [msgpackKeeps_inline]
        simp
      · intro bs' he hlong
        cases he
        exact if_pos hlong
  | mapped path offset size =>
      refine ⟨fun _ he => (by cases he), ?_, ?_, fun _ he => (by cases he)⟩
      · intro path' contents hfile he
        obtain ⟨-, contents', hfile', hne, -⟩ := h
        cases he
        rw [hfile] at hfile'
        cases hfile'
        exact cerealKeeps_wholeFile hfile hne
      · exact iff_of_true (msgpackKeeps_mapped h) fun _ he => (by cases he)

/-- A file system with one file of two bytes. -/
def twoByteFile (path : Bytes) : Option Bytes := if path = [102] then some [7, 8] else none

theorem blob_roundTrip_twoByteFile :
    (mapped [102] 0 2).CerealKeeps twoByteFile ∧ (mapped [102] 0 2).MsgpackKeeps twoByteFile := by
  have hvalid : (mapped [102] 0 2).Valid twoByteFile :=
    ⟨by decide, [7, 8], rfl, by decide, by decide⟩
  obtain ⟨-, hfile, hmsgpack, -⟩ := blob_roundTrip twoByteFile hvalid
  exact ⟨hfile [102] [7, 8] rfl rfl, hmsgpack.mpr fun _ he => by cases he⟩

/-- An inline blob of `2 ^ 32` bytes does not pass through msgpack; and the first byte of
the file of two is not what cereal gives back. -/
theorem not_blob_roundTrip :
    ((inline (List.replicate (2 ^ 32) 0)).Valid twoByteFile ∧
      ¬ (inline (List.replicate (2 ^ 32) 0)).MsgpackKeeps twoByteFile) ∧
    (mapped [102] 0 1).Valid twoByteFile ∧ ¬ (mapped [102] 0 1).CerealKeeps twoByteFile := by
  refine ⟨⟨trivial, ?_⟩, ⟨by decide, [7, 8], rfl, by decide, by decide⟩, ?_⟩
  · rw [msgpackKeeps_inline, List.length_replicate]
    exact Nat.lt_irrefl _
  · rintro ⟨b', hb', bs, hbs, hbs'⟩
    cases hb'
    cases hbs
    cases hbs'

end Results
end BlobView
end Cradle
