import Cradle.Lib.PrefixCode
import Mathlib.Algebra.Group.Nat.Defs
import Mathlib.Data.Int.Notation

/-!
# Byte strings, little-endian integers and blobs

`std::string` and `byte_vector` are byte strings.  An integer's object
representation is its two's complement in little-endian order.  A `blob` is a
byte sequence together with what the program can observe about its storage:
whether its owner maps a file (and which one), and whether `data()` is a null
pointer, which is possible only for an empty blob.
-/

namespace Cradle

abbrev Bytes := List UInt8

instance : LawfulBEq Bytes := List.instLawfulBEq

/-- The low `w` bytes of `n`, least significant first. -/
def leBytes : ℕ → ℕ → Bytes
  | 0, _ => []
  | w + 1, n => UInt8.ofNat n :: leBytes w (n / 256)

@[simp] theorem length_leBytes (w n : ℕ) : (leBytes w n).length = w := by
  induction w generalizing n with
  | zero => rfl
  | succ w ih => simp [leBytes, ih]

@[simp] theorem leBytes_zero (w : ℕ) : leBytes w 0 = List.replicate w 0 := by
  induction w with
  | zero => rfl
  | succ w ih => simp [leBytes, ih, List.replicate_succ]

theorem leBytes_inj {w n m : ℕ} (hn : n < 256 ^ w) (hm : m < 256 ^ w)
    (h : leBytes w n = leBytes w m) : n = m := by
  induction w generalizing n m with
  | zero => simp only [Nat.pow_zero] at hn hm; omega
  | succ w ih =>
      simp only [leBytes, List.cons.injEq] at h
      have hlow : n % 256 = m % 256 := by
        simpa [UInt8.toNat_ofNat'] using congrArg UInt8.toNat h.1
      have hhigh : n / 256 = m / 256 := by
        refine ih ?_ ?_ h.2
        · rw [Nat.pow_succ] at hn; omega
        · rw [Nat.pow_succ] at hm; omega
      omega

/-- Every `w`-byte string is the representation of a number below `256 ^ w`. -/
theorem exists_leBytes (bs : Bytes) : ∃ n, n < 256 ^ bs.length ∧ leBytes bs.length n = bs := by
  induction bs with
  | nil => exact ⟨0, by simp, rfl⟩
  | cons b bs ih =>
      obtain ⟨n, hn, he⟩ := ih
      refine ⟨b.toNat + 256 * n, ?_, ?_⟩
      · have := b.toNat_lt
        simp only [List.length_cons, Nat.pow_succ]
        omega
      · have hb : b.toNat < 256 := b.toNat_lt
        have hdiv : (b.toNat + 256 * n) / 256 = n := by omega
        have hmod : UInt8.ofNat (b.toNat + 256 * n) = b := by
          apply UInt8.toNat_inj.mp
          simp only [UInt8.toNat_ofNat', Nat.reducePow]
          omega
        simp only [List.length_cons, leBytes, hdiv, hmod, he]

theorem leBytes_selfDelimiting (w : ℕ) :
    PrefixCode.SelfDelimiting (leBytes w) (· < 256 ^ w) Eq :=
  PrefixCode.Separates.selfDelimiting (fun _ _ hn hm h => leBytes_inj hn hm h)
    (fun n _ => length_leBytes w n)

/-- The C++ `blob`: its bytes, the file its owner maps (if any), and whether its
data pointer is null. -/
structure Blob where
  data : Bytes
  mappedFile : Option Bytes := none
  nullData : Bool := false
  null_empty : nullData = true → data = [] := by decide
  deriving DecidableEq

namespace Blob

def size (b : Blob) : ℕ := b.data.length

/-- `operator==` on blobs compares sizes and bytes, not storage. -/
def equals (a b : Blob) : Bool := a.data == b.data

/-- A mapped blob holds the contents of its file.  `fs` gives the contents of
each file that is mapped. -/
def Backed (fs : Bytes → Bytes) (b : Blob) : Prop :=
  ∀ p, b.mappedFile = some p → b.data = fs p

/-- A plain blob with a non-null data pointer. -/
def ofBytes (data : Bytes) : Blob := { data, null_empty := by simp }

/-- A blob that maps a file. -/
def ofFile (data : Bytes) (path : Option Bytes) : Blob :=
  { data, mappedFile := path, null_empty := by simp }

@[simp] theorem equals_iff (a b : Blob) : a.equals b = true ↔ a.data = b.data := by
  simp [equals]

@[simp] theorem data_ofBytes (bs : Bytes) : (ofBytes bs).data = bs := rfl
@[simp] theorem data_ofFile (bs : Bytes) (path : Option Bytes) : (ofFile bs path).data = bs := rfl
@[simp] theorem mappedFile_ofBytes (bs : Bytes) : (ofBytes bs).mappedFile = none := rfl

theorem backed_ofBytes (fs : Bytes → Bytes) (bs : Bytes) : (ofBytes bs).Backed fs := by
  simp [Backed]

end Blob
end Cradle
