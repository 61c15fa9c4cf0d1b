import Cradle.Core.UniqueHash
import Cradle.Disk.Writers

/-!
# The local disk cache

`local_disk_cache` stores blobs in an `ll_disk_cache`.  A value of more than 1024 bytes
that is not in a blob file is compressed into a digest-named file, between the two
halves of an insertion; other values go into the database.  `read` undoes this, and
reports any error as a miss.

The lz4 library and SHA-256 are parameters.  `read` checks the digest of a file's data
on a `byte_vector`, whose hash has no tag, while `write` hashed a `blob`, whose hash
has one: with `check_file_data` no file is ever accepted.
-/

namespace Cradle.Disk

/-! ## lz4 -/

/-- `LZ4_compress_default` and `LZ4_decompress_safe`, on a source and a destination
capacity; `none` is an error code. -/
structure Lz4 where
  compressDefault : Bytes → ℕ → Option Bytes
  decompressSafe : Bytes → ℕ → Option Bytes

namespace Lz4

/-- `LZ4_MAX_INPUT_SIZE`. -/
def maxInputSize : ℕ := 0x7E000000

/-- The largest value of an `int`. -/
def intMax : ℕ := 0x7FFFFFFF

/-- `LZ4_compressBound`. -/
def compressBound (size : ℕ) : ℕ := if size ≤ maxInputSize then size + size / 255 + 16 else 0

def maxCompressedSize (originalSize : ℕ) : Option ℕ :=
  if originalSize ≤ intMax then some (compressBound originalSize) else none

section
variable (lz4 : Lz4)

def compress (src : Bytes) (dstSize : ℕ) : Option Bytes :=
  if src.length ≤ intMax ∧ dstSize ≤ intMax then lz4.compressDefault src dstSize else none

def decompress (src : Bytes) (dstSize : ℕ) : Option Bytes :=
  if src.length ≤ intMax ∧ dstSize ≤ intMax then lz4.decompressSafe src dstSize else none

/-- Compression into a buffer of the maximum size, as `write` does it. -/
def compressed (data : Bytes) : Option Bytes :=
  (maxCompressedSize data.length).bind (lz4.compress data)

/-- What the library promises. -/
structure Lawful : Prop where
  /-- Compression succeeds when the destination has room for the worst case. -/
  succeeds : ∀ src cap, src.length ≤ maxInputSize → compressBound src.length ≤ cap →
    (lz4.compressDefault src cap).isSome
  /-- The output is not empty and fits in the destination. -/
  fits : ∀ src cap out, lz4.compressDefault src cap = some out → 0 < out.length ∧ out.length ≤ cap
  /-- Decompression inverts compression. -/
  inverts : ∀ src cap out dstCap, lz4.compressDefault src cap = some out → src.length ≤ dstCap →
    lz4.decompressSafe out dstCap = some src

end

variable {lz4 : Lz4}

theorem compressBound_le {n : ℕ} : compressBound n ≤ intMax := by
  rw [compressBound, maxInputSize, intMax]
  split <;> omega

theorem compressed_eq {data : Bytes} (h : data.length ≤ intMax) :
    lz4.compressed data = lz4.compressDefault data (compressBound data.length) := by
  simp [compressed, maxCompressedSize, compress, h, compressBound_le]

/-- Exactly the inputs of at most `LZ4_MAX_INPUT_SIZE` bytes can be compressed. -/
theorem compressed_isSome (hl : lz4.Lawful) (data : Bytes) :
    (lz4.compressed data).isSome ↔ data.length ≤ maxInputSize := by
  by_cases hmax : data.length ≤ maxInputSize
  · have hint : data.length ≤ intMax := hmax.trans (by decide)
    rw [compressed_eq hint]
    exact ⟨fun _ => hmax, fun _ => hl.succeeds _ _ hmax le_rfl⟩
  · refine ⟨fun h => absurd h ?_, fun h => absurd h hmax⟩
    by_cases hint : data.length ≤ intMax
    · -- the capacity is 0
      rw [compressed_eq hint]
      intro h
      obtain ⟨out, hout⟩ := Option.isSome_iff_exists.mp h
      have hfits := hl.fits _ _ _ hout
      simp only [compressBound, hmax, if_false] at hfits
      omega
    · simp [compressed, maxCompressedSize, hint]

/-- Reading back what was compressed. -/
theorem decompress_compressed (hl : lz4.Lawful) {data out : Bytes}
    (h : lz4.compressed data = some out) : lz4.decompress out data.length = some data := by
  have hmax : data.length ≤ maxInputSize := by
    rw [← compressed_isSome hl data, h]
    rfl
  have hint : data.length ≤ intMax := hmax.trans (by decide)
  rw [compressed_eq hint] at h
  have hout : out.length ≤ intMax := (hl.fits _ _ _ h).2.trans compressBound_le
  simp only [decompress, hout, hint, and_self, if_true]
  exact hl.inverts _ _ _ _ h le_rfl

end Lz4

/-! ## The cache -/

/-- `local_disk_cache`. -/
structure LocalDiskCache where
  ll : LLDiskCache
  checkFileData : Bool := false

/-- The environment of a local disk cache; `sha` is `get_unique_string` on a byte stream. -/
structure LocalEnv extends LLDiskCache.Env where
  sha : Bytes → Digest
  lz4 : Lz4

namespace LocalDiskCache

section
variable (env : LocalEnv)

/-- `write`, up to the end of its task. -/
def write (c : LocalDiskCache) (now : ℕ) (key : Key) (value : Blob) : LocalDiskCache :=
  let digest := env.sha value.stream
  if 1024 < value.size ∧ value.mappedFile = none then
    match c.ll.initiateInsert now key digest with
    | (ll, .ok (some casId)) =>
        match env.lz4.compressed value.data with
        | some compressed =>
            let ll := { ll with files := Function.update ll.files digest (some compressed) }
            { c with ll := ll.finishInsert casId compressed.length value.size }
        | none => { c with ll }
    | (ll, _) => { c with ll }
  else { c with ll := (c.ll.insert now key digest value none).1 }

/-- `decompress_file_data`; `none` is an exception. -/
def decompressFileData (c : LocalDiskCache) (entry : LLDiskCache.CasEntry) (data : Bytes) :
    Option Blob :=
  match env.lz4.decompress data entry.originalSize with
  | none => none
  | some decompressed =>
      if decompressed.length ≠ entry.originalSize then none
      else if c.checkFileData = true ∧ env.sha decompressed ≠ entry.digest then none
      else some (Blob.ofBytes decompressed)

/-- `read`. -/
def read (c : LocalDiskCache) (key : Key) : LocalDiskCache × Option Blob :=
  match c.ll.find env.blobFiles key with
  | (ll, .ok (some entry)) =>
      ({ c with ll },
        match entry.value with
        | some value => some value
        | none => (ll.files entry.digest).bind (c.decompressFileData env entry))
  | (ll, _) => ({ c with ll }, none)

/-- `write_raw_value`. -/
def writeRawValue (c : LocalDiskCache) (now : ℕ) (key : Key) (value : Blob) : LocalDiskCache :=
  { c with ll := (c.ll.insert now key (env.sha value.stream) value none).1 }

/-- `read_raw_value`; only an exception has no result. -/
def readRawValue (c : LocalDiskCache) (key : Key) : LocalDiskCache × Option (Option Blob) :=
  match c.ll.find env.blobFiles key with
  | (ll, .ok entry) => ({ c with ll }, some (entry.bind (·.value)))
  | (ll, .error _) => ({ c with ll }, none)

def clear (c : LocalDiskCache) : LocalDiskCache := { c with ll := c.ll.clear }

/-- The calls to a running cache; `flush` is made by the poller. -/
inductive Call
  | write (now : ℕ) (key : Key) (value : Blob)
  | writeRawValue (now : ℕ) (key : Key) (value : Blob)
  | read (key : Key)
  | readRawValue (key : Key)
  | clear
  | flush (now : ℕ → ℕ) (forced idle : Bool)

def call (c : LocalDiskCache) : Call → LocalDiskCache
  | .write now key value => c.write env now key value
  | .writeRawValue now key value => c.writeRawValue env now key value
  | .read key => (c.read env key).1
  | .readRawValue key => (c.readRawValue env key).1
  | .clear => c.clear
  | .flush now forced idle => { c with ll := c.ll.flushAcUsage now forced idle }

/-- The constructor, on a disk with the given directories. -/
def construct (dirs : Bytes → Directory) (config : Config) (checkFileData : Bool) :
    LocalDiskCache :=
  { ll := LLDiskCache.construct env.sharedCacheDir dirs config, checkFileData }

/-- A call, or the construction of a new cache on the same disk. -/
inductive Op
  | call (call : Call)
  | restart (config : Config) (checkFileData : Bool)

def step (c : LocalDiskCache) : Op → LocalDiskCache
  | .call a => c.call env a
  | .restart config checkFileData =>
      construct env (Function.update c.ll.otherDirs c.ll.dir c.ll.store) config checkFileData

/-- The states of the runs that start with a cache constructed on an empty disk. -/
abbrev Reachable : LocalDiskCache → Prop :=
  Transition.Reachable (fun c op => some (step env c op)) (fun _ _ => True)
    (Set.range fun p : Config × Bool => construct env (fun _ => {}) p.1 p.2)

end
end LocalDiskCache
end Cradle.Disk
