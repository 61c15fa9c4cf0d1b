import Cradle.Core.Bytes

/-!
# The byte streams fed to `unique_hasher`

`update_unique_hash` writes each argument of a request with its own encoder and
nothing in between.  Strings, byte vectors and blobs are written without their
length; a vector of anything else is preceded by its element count; a sub-request
contributes the 32-byte digest over its own stream, which starts with its uuid.

An argument is a value of one of the types of `ArgType`.  Sub-requests are
type-erased (`function_request` hides the function and the argument types), so one
argument type covers sub-requests with any uuid and any arguments.

The digest function is a parameter `sha`: the stream of an argument list is
defined whatever it is.
-/

namespace Cradle

/-! ## Argument types and values -/

/-- The C++ integer types, by width and signedness. -/
inductive IntType
  | int8 | uint8 | int16 | uint16 | int32 | uint32 | int64 | uint64
  deriving DecidableEq, Repr

namespace IntType

/-- `sizeof`. -/
def width : IntType → ℕ
  | int8 | uint8 => 1
  | int16 | uint16 => 2
  | int32 | uint32 => 4
  | int64 | uint64 => 8

def signed : IntType → Bool
  | int8 | int16 | int32 | int64 => true
  | uint8 | uint16 | uint32 | uint64 => false

/-- The smallest value of the type. -/
def lowest (t : IntType) : ℤ := if t.signed then -(256 ^ t.width / 2 : ℕ) else 0

/-- `v` is a value of the type: one of the `256 ^ width` numbers from `lowest` on. -/
def InRange (t : IntType) (v : ℤ) : Prop := t.lowest ≤ v ∧ v < t.lowest + (256 ^ t.width : ℕ)

instance (t : IntType) (v : ℤ) : Decidable (t.InRange v) := inferInstanceAs (Decidable (_ ∧ _))

end IntType

inductive ArgType
  | string
  | int (t : IntType)
  | blob
  | vector (elem : ArgType)
  | request
  deriving DecidableEq, Repr

inductive Arg
  | string (s : Bytes)
  | int (t : IntType) (v : ℤ)
  | blob (b : Blob)
  | vector (elem : ArgType) (xs : List Arg)
  | request (uuid : Bytes) (args : List Arg)

/-- The C++ type of an argument. -/
def Arg.type : Arg → ArgType
  | .string _ => .string
  | .int t _ => .int t
  | .blob _ => .blob
  | .vector elem _ => .vector elem
  | .request _ _ => .request

/-- Typing of arguments, relative to the contents `fs` of the mapped files.  The
size of a vector fits in `size_t`; a sub-request takes arguments of any types. -/
inductive HasType (fs : Bytes → Bytes) : Arg → ArgType → Prop
  | string (s : Bytes) : HasType fs (.string s) .string
  | int {t : IntType} {v : ℤ} (h : t.InRange v) : HasType fs (.int t v) (.int t)
  | blob {b : Blob} (h : b.Backed fs) : HasType fs (.blob b) .blob
  | vector {elem : ArgType} {xs : List Arg} (h : ∀ x ∈ xs, HasType fs x elem)
      (hsize : xs.length < 256 ^ 8) : HasType fs (.vector elem xs) (.vector elem)
  | request {uuid : Bytes} {args : List Arg} (h : ∀ x ∈ args, HasType fs x x.type) :
      HasType fs (.request uuid args) .request

/-- An argument list of the given types. -/
abbrev HasTypes (fs : Bytes → Bytes) : List Arg → List ArgType → Prop := List.Forall₂ (HasType fs)

mutual
/-- `operator==` on arguments of one type. -/
def Arg.equals : Arg → Arg → Bool
  | .string s, .string s' => s == s'
  | .int t v, .int t' v' => t == t' && v == v'
  | .blob b, .blob b' => b.equals b'
  | .vector e xs, .vector e' ys => e == e' && Arg.allEqual xs ys
  | .request u xs, .request u' ys => u == u' && Arg.allEqual xs ys
  | _, _ => false
/-- `operator==` on argument tuples. -/
def Arg.allEqual : List Arg → List Arg → Bool
  | [], [] => true
  | x :: xs, y :: ys => x.equals y && Arg.allEqual xs ys
  | _, _ => false
end

/-! ## The streams -/

/-- The stream of a blob: a tag byte, then the file path or the data. -/
def Blob.stream (b : Blob) : Bytes :=
  match b.mappedFile with
  | some path => 0x01 :: path
  | none => 0x00 :: b.data

/-- The object representation of an integer. -/
def IntType.stream (t : IntType) (v : ℤ) : Bytes :=
  leBytes t.width (v % (256 ^ t.width : ℕ)).toNat

section Stream
variable (sha : Bytes → Bytes)

mutual
/-- What `update_unique_hash` feeds to the hasher for one argument. -/
def Arg.stream : Arg → Bytes
  | .string s => s
  | .int t v => t.stream v
  | .blob b => b.stream
  | .vector elem xs =>
      if elem = .int .uint8 then Arg.streams xs
      else leBytes 8 xs.length ++ Arg.streams xs
  | .request uuid args => sha (uuid ++ Arg.streams args)
/-- The fold over an argument pack. -/
def Arg.streams : List Arg → Bytes
  | [] => []
  | x :: xs => x.stream ++ Arg.streams xs
end

/-- What `calc_unique_hash` feeds to the hasher for a request. -/
def requestStream (uuid : Bytes) (args : List Arg) : Bytes := uuid ++ Arg.streams sha args

/-- What `sha256_hashed_id::update_hash` feeds to the hasher. -/
def hashedIdStream (args : List Arg) : Bytes := Arg.streams sha args

end Stream

/-! ## Ids -/

/-- The statically typed ids: `simple_id` over an argument type or over one of the
two unit types, `sha256_hashed_id`, `id_pair`, and `id_ref`, which erases the type
of the id it refers to. -/
inductive IdType
  | unit
  | simple (t : ArgType)
  | hashed (ts : List ArgType)
  | pair (l r : IdType)
  | ref
  deriving DecidableEq

inductive Id
  | unit
  | simple (v : Arg)
  | hashed (args : List Arg)
  | pair (l r : Id)
  | ref (id : Id)

/-- Typing of ids. -/
inductive HasIdType (fs : Bytes → Bytes) : Id → IdType → Prop
  | unit : HasIdType fs .unit .unit
  | simple {v : Arg} {t : ArgType} (h : HasType fs v t) : HasIdType fs (.simple v) (.simple t)
  | hashed {args : List Arg} {ts : List ArgType} (h : HasTypes fs args ts) :
      HasIdType fs (.hashed args) (.hashed ts)
  | pair {l r : Id} {a b : IdType} (hl : HasIdType fs l a) (hr : HasIdType fs r b) :
      HasIdType fs (.pair l r) (.pair a b)
  | ref {id : Id} {t : IdType} (h : HasIdType fs id t) : HasIdType fs (.ref id) .ref

/-- `id_interface` equality: the same concrete type, then `equals`. -/
def Id.equals : Id → Id → Bool
  | .unit, .unit => true
  | .simple v, .simple v' => v.equals v'
  | .hashed xs, .hashed ys => Arg.allEqual xs ys
  | .pair l r, .pair l' r' => l.equals l' && r.equals r'
  | .ref i, .ref j => i.equals j
  | _, _ => false

/-- `update_hash` of an id. -/
def Id.stream (sha : Bytes → Bytes) : Id → Bytes
  | .unit => []
  | .simple v => v.stream sha
  | .hashed args => hashedIdStream sha args
  | .pair l r => l.stream sha ++ r.stream sha
  | .ref id => id.stream sha

end Cradle
