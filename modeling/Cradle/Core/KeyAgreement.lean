import Cradle.Core.UniqueHash
import Cradle.Typing.NativeEncoding
import Cradle.Typing.Single

/-!
# Whether equal requests have one key

A request is looked up in the memory cache by `equals` and in the secondary cache by its
unique string.  Equality compares blobs by their bytes, wherever they are; the unique
hash takes the path of a blob file instead of its bytes.  Apart from this, and from the
two zeros of the floating-point types, the hash follows equality through all argument
types and all nestings of requests.

`Argument` has every type of argument that the hash is defined for.  A type of the typing
library is hashed through its `dynamic`, and stands here as that `dynamic`.
-/

namespace Cradle

/-! ## Arguments -/

inductive Argument
  | string (s : Bytes)
  /-- Also `bool` and `char`. -/
  | integer (t : IntType) (v : ℤ)
  | float (x : Single)
  | double (x : Double)
  | blob (b : Blob)
  | dynamic (v : Dynamic)
  | demoClass (x : ℤ) (y : Blob)
  /-- A vector; `counted` is false for a `byte_vector`. -/
  | vector (counted : Bool) (items : List Argument)
  | valueRequest (value : Argument)
  | request (uuid : Bytes) (args : List Argument)

namespace Argument

/-! ## Equality -/

section
variable (sameObject : Argument → Argument → Bool)

mutual
/-- `operator==` on arguments of one type.  A request is equal to itself without a look at
its arguments; `sameObject` tells which arguments are one object. -/
def equals : Argument → Argument → Bool
  | string s, string s' => s == s'
  | integer t v, integer t' v' => t == t' && v == v'
  | float x, float y => x.toDouble.equals y.toDouble
  | double x, double y => x.equals y
  | blob b, blob b' => b.equals b'
  | dynamic v, dynamic w => v.equals w
  | demoClass x b, demoClass y b' => x == y && b.equals b'
  | vector c xs, vector c' ys => c == c' && allEqual xs ys
  | valueRequest x, valueRequest y => x.equals y
  | request u xs, request u' ys =>
      sameObject (request u xs) (request u' ys) || (u == u' && allEqual xs ys)
  | _, _ => false
/-- `operator==` on argument tuples. -/
def allEqual : List Argument → List Argument → Bool
  | [], [] => true
  | x :: xs, y :: ys => x.equals y && allEqual xs ys
  | _, _ => false
end

end

/-! ## The unique hash -/

section
variable (sha : Bytes → Bytes)

mutual
/-- What `update_unique_hash` feeds to the hasher for one argument; `none` is the exception
of the native encoding. -/
def stream : Argument → Option Bytes
  | string s => some s
  | integer t v => some (t.stream v)
  | float x => some (leBytes 4 x.bits.toNat)
  | double x => some (leBytes 8 x.bits.toNat)
  | blob b => some b.stream
  | dynamic v => v.writeNativelyEncodedValue
  | demoClass x y => some (IntType.int32.stream x ++ y.stream)
  | vector counted items =>
      (streams items).map ((if counted then leBytes 8 items.length else []) ++ ·)
  | valueRequest x => x.stream
  | request uuid args => (streams args).map fun out => sha (uuid ++ out)
/-- The fold over an argument pack. -/
def streams : List Argument → Option Bytes
  | [] => some []
  | x :: xs => x.stream.bind fun out => (streams xs).map (out ++ ·)
end

end

end Argument

mutual
/-- The arguments that unequal requests are told apart by. -/
def Arg.toArgument : Arg → Argument
  | .string s => .string s
  | .int t v => .integer t v
  | .blob b => .blob b
  | .vector elem xs => .vector (elem ≠ .int .uint8) (Arg.toArguments xs)
  | .request uuid args => .request uuid (Arg.toArguments args)
def Arg.toArguments : List Arg → List Argument
  | [] => []
  | x :: xs => x.toArgument :: Arg.toArguments xs
end

mutual
/-- Their streams are the same. -/
theorem Arg.stream_toArgument (sha : Bytes → Bytes) :
    ∀ x : Arg, x.toArgument.stream sha = some (x.stream sha)
  | .string _ => rfl
  | .int _ _ => rfl
  | .blob _ => rfl
  | .vector elem xs => by
      obtain ⟨hout, hlen⟩ := Arg.streams_toArguments sha xs
      by_cases h : elem = .int .uint8
      · simp [Arg.toArgument, Argument.stream, Arg.stream, hout, h]
      · simp [Arg.toArgument, Argument.stream, Arg.stream, hout, hlen, h]
  | .request uuid args => by
      simp [Arg.toArgument, Argument.stream, Arg.stream, (Arg.streams_toArguments sha args).1]
theorem Arg.streams_toArguments (sha : Bytes → Bytes) :
    ∀ xs : List Arg, Argument.streams sha (Arg.toArguments xs) = some (Arg.streams sha xs)
      ∧ (Arg.toArguments xs).length = xs.length
  | [] => ⟨by simp [Arg.toArguments, Argument.streams, Arg.streams], rfl⟩
  | x :: xs => by
      obtain ⟨hxs, hlen⟩ := Arg.streams_toArguments sha xs
      refine ⟨?_, by simp [Arg.toArguments, hlen]⟩
      simp [Arg.toArguments, Argument.streams, Arg.streams, Arg.stream_toArgument sha x, hxs]
end

/-! ## Values that are stored alike -/

namespace Dynamic

mutual
/-- The floats at the same places of two values have the same bits. -/
def floatsAlike : Dynamic → Dynamic → Bool
  | float x, float y => x == y
  | array as, array bs => itemsAlike as bs
  | map as, map bs => fieldsAlike as bs
  | _, _ => true
def itemsAlike : List Dynamic → List Dynamic → Bool
  | a :: as, b :: bs => a.floatsAlike b && itemsAlike as bs
  | _, _ => true
def fieldsAlike : List (Dynamic × Dynamic) → List (Dynamic × Dynamic) → Bool
  | (k, x) :: as, (l, y) :: bs => k.floatsAlike l && x.floatsAlike y && fieldsAlike as bs
  | _, _ => true
end

mutual
/-- Equal values are written alike, up to the bits of their floats. -/
theorem write_eq_of_equals : ∀ {v w : Dynamic}, v.equals w = true → v.floatsAlike w = true →
    v.writeNativelyEncodedValue = w.writeNativelyEncodedValue
  | nil, w, h, _ => by cases w <;> simp_all [equals]
  | boolean _, w, h, _ => by cases w <;> simp_all [equals]
  | integer _, w, h, _ => by cases w <;> simp_all [equals]
  | float _, w, h, hs => by cases w <;> simp_all [equals, floatsAlike]
  | string _, w, h, _ => by cases w <;> simp_all [equals]
  | blob _, w, h, _ => by
      cases w <;> simp_all [equals, writeNativelyEncodedValue, Blob.size]
  | datetime _, w, h, _ => by cases w <;> simp_all [equals]
  | array as, w, h, hs => by
      cases w with
      | array bs =>
          simp only [equals, floatsAlike] at h hs
          obtain ⟨hout, hlen⟩ := writeItems_eq_of_equals h hs
          simp only [writeNativelyEncodedValue, hout, hlen]
      | _ => simp [equals] at h
  | map as, w, h, hs => by
      cases w with
      | map bs =>
          simp only [equals, floatsAlike] at h hs
          obtain ⟨hout, hlen⟩ := writeFields_eq_of_equals h hs
          simp only [writeNativelyEncodedValue, hout, hlen]
      | _ => simp [equals] at h
theorem writeItems_eq_of_equals : ∀ {as bs : List Dynamic}, allEqual as bs = true →
    itemsAlike as bs = true → writeItems as = writeItems bs ∧ as.length = bs.length
  | [], [], _, _ => ⟨rfl, rfl⟩
  | [], _ :: _, h, _ => by simp [allEqual] at h
  | _ :: _, [], h, _ => by simp [allEqual] at h
  | a :: as, b :: bs, h, hs => by
      simp only [allEqual, itemsAlike, Bool.and_eq_true] at h hs
      have ha := write_eq_of_equals h.1 hs.1
      obtain ⟨has, hlen⟩ := writeItems_eq_of_equals h.2 hs.2
      exact ⟨by simp only [writeItems, ha, has], by simp [hlen]⟩
theorem writeFields_eq_of_equals : ∀ {as bs : List (Dynamic × Dynamic)},
    fieldsEqual as bs = true → fieldsAlike as bs = true →
      writeFields as = writeFields bs ∧ as.length = bs.length
  | [], [], _, _ => ⟨rfl, rfl⟩
  | [], _ :: _, h, _ => by simp [fieldsEqual] at h
  | _ :: _, [], h, _ => by simp [fieldsEqual] at h
  | (k, x) :: as, (l, y) :: bs, h, hs => by
      simp only [fieldsEqual, fieldsAlike, Bool.and_eq_true] at h hs
      have hk := write_eq_of_equals h.1.1 hs.1.1
      have hx := write_eq_of_equals h.1.2 hs.1.2
      obtain ⟨has, hlen⟩ := writeFields_eq_of_equals h.2 hs.2
      exact ⟨by simp only [writeFields, hk, hx, has], by simp [hlen]⟩
end

end Dynamic

/-- Both blobs are in memory, or both map the same file. -/
def Blob.storedAlike (a b : Blob) : Bool := a.mappedFile == b.mappedFile

theorem Blob.stream_eq_of_equals {a b : Blob} (h : a.equals b = true)
    (hs : a.storedAlike b = true) : a.stream = b.stream := by
  simp only [Blob.equals_iff, Blob.storedAlike, beq_iff_eq] at h hs
  simp only [Blob.stream, h, hs]

namespace Argument

mutual
/-- The blobs at the same places of two arguments are stored alike, and the floats there
have the same bits. -/
def storedAlike : Argument → Argument → Bool
  | float x, float y => x == y
  | double x, double y => x == y
  | blob b, blob b' => b.storedAlike b'
  | dynamic v, dynamic w => v.floatsAlike w
  | demoClass _ b, demoClass _ b' => b.storedAlike b'
  | vector _ xs, vector _ ys => allStoredAlike xs ys
  | valueRequest x, valueRequest y => x.storedAlike y
  | request _ xs, request _ ys => allStoredAlike xs ys
  | _, _ => true
def allStoredAlike : List Argument → List Argument → Bool
  | x :: xs, y :: ys => x.storedAlike y && allStoredAlike xs ys
  | _, _ => true
end

section
variable {sha : Bytes → Bytes} {sameObject : Argument → Argument → Bool}

mutual
/-- Equal arguments that are stored alike have one stream. -/
theorem stream_eq_of_equals (hsame : ∀ x y, sameObject x y = true → x = y) :
    ∀ {x y : Argument}, x.equals sameObject y = true →
    x.storedAlike y = true → x.stream sha = y.stream sha
  | string _, y, h, _ => by cases y <;> simp_all [equals]
  | integer _ _, y, h, _ => by cases y <;> simp_all [equals]
  | float _, y, h, hs => by cases y <;> simp_all [equals, storedAlike]
  | double _, y, h, hs => by cases y <;> simp_all [equals, storedAlike]
  | blob b, y, h, hs => by
      cases y with
      | blob b' =>
          simp only [equals, storedAlike] at h hs
          simp only [stream, Blob.stream_eq_of_equals h hs]
      | _ => simp [equals] at h
  | dynamic v, y, h, hs => by
      cases y with
      | dynamic w =>
          simp only [equals, storedAlike] at h hs
          exact Dynamic.write_eq_of_equals h hs
      | _ => simp [equals] at h
  | demoClass x b, y, h, hs => by
      cases y with
      | demoClass x' b' =>
          simp only [equals, storedAlike, Bool.and_eq_true, beq_iff_eq] at h hs
          simp only [stream, h.1, Blob.stream_eq_of_equals h.2 hs]
      | _ => simp [equals] at h
  | vector c xs, y, h, hs => by
      cases y with
      | vector c' ys =>
          simp only [equals, storedAlike, Bool.and_eq_true, beq_iff_eq] at h hs
          obtain ⟨hout, hlen⟩ := streams_eq_of_equals hsame h.2 hs
          simp only [stream, h.1, hout, hlen]
      | _ => simp [equals] at h
  | valueRequest x, y, h, hs => by
      cases y with
      | valueRequest z =>
          simp only [equals, storedAlike] at h hs
          have hx : x.stream sha = z.stream sha := stream_eq_of_equals hsame h hs
          simp only [stream, hx]
      | _ => simp [equals] at h
  | request u xs, y, h, hs => by
      cases y with
      | request u' ys =>
          simp only [equals, storedAlike, Bool.or_eq_true, Bool.and_eq_true, beq_iff_eq] at h hs
          rcases h with h | h
          · rw [hsame _ _ h]
          · simp only [stream, h.1, (streams_eq_of_equals hsame h.2 hs).1]
      | _ => simp [equals] at h
/-- So do equal argument tuples. -/
theorem streams_eq_of_equals (hsame : ∀ x y, sameObject x y = true → x = y) :
    ∀ {xs ys : List Argument}, allEqual sameObject xs ys = true →
    allStoredAlike xs ys = true → streams sha xs = streams sha ys ∧ xs.length = ys.length
  | [], [], _, _ => ⟨rfl, rfl⟩
  | [], _ :: _, h, _ => by simp [allEqual] at h
  | _ :: _, [], h, _ => by simp [allEqual] at h
  | x :: xs, y :: ys, h, hs => by
      simp only [allEqual, allStoredAlike, Bool.and_eq_true] at h hs
      have hx := stream_eq_of_equals hsame h.1 hs.1
      obtain ⟨hxs, hlen⟩ := streams_eq_of_equals hsame h.2 hs.2
      exact ⟨by simp only [streams, hx, hxs], by simp [hlen]⟩
end

end

end Argument

/-! ## Ids -/

/-- The ids: the two unit ids, `simple_id`, `sha256_hashed_id`, `id_pair` and `id_ref`.  A
request is an id itself, with the equality and hash that it has as an argument. -/
inductive KeyId
  | unit
  | simple (value : Argument)
  | hashed (args : List Argument)
  | pair (l r : KeyId)
  | ref (id : KeyId)

namespace KeyId

/-- `operator==` on ids of one type. -/
def equals (sameObject : Argument → Argument → Bool) : KeyId → KeyId → Bool
  | unit, unit => true
  | simple x, simple y => x.equals sameObject y
  | hashed xs, hashed ys => Argument.allEqual sameObject xs ys
  | pair l r, pair l' r' => l.equals sameObject l' && r.equals sameObject r'
  | ref i, ref j => i.equals sameObject j
  | _, _ => false

/-- `update_hash`. -/
def stream (sha : Bytes → Bytes) : KeyId → Option Bytes
  | unit => some []
  | simple x => x.stream sha
  | hashed args => Argument.streams sha args
  | pair l r => (l.stream sha).bind fun out => (r.stream sha).map (out ++ ·)
  | ref id => id.stream sha

def storedAlike : KeyId → KeyId → Bool
  | simple x, simple y => x.storedAlike y
  | hashed xs, hashed ys => Argument.allStoredAlike xs ys
  | pair l r, pair l' r' => l.storedAlike l' && r.storedAlike r'
  | ref i, ref j => i.storedAlike j
  | _, _ => true

/-- `unique_hasher::get_string`. -/
def getString (digest : Bytes) : List Char :=
  digest.flatMap fun val => [Nat.digitChar (val.toNat / 16), Nat.digitChar (val.toNat % 16)]

/-- `get_unique_string`. -/
def getUniqueString (sha : Bytes → Bytes) (id : KeyId) : Option (List Char) :=
  (id.stream sha).map fun out => getString (sha out)

variable {sha : Bytes → Bytes} {sameObject : Argument → Argument → Bool}

theorem stream_eq_of_equals (hsame : ∀ x y, sameObject x y = true → x = y) {i j : KeyId}
    (h : i.equals sameObject j = true) (hs : i.storedAlike j = true) :
    i.stream sha = j.stream sha := by
  induction i generalizing j with
  | unit => cases j <;> simp_all [equals]
  | simple x =>
      cases j with
      | simple y => exact Argument.stream_eq_of_equals hsame h hs
      | _ => simp [equals] at h
  | hashed xs =>
      cases j with
      | hashed ys => exact (Argument.streams_eq_of_equals hsame h hs).1
      | _ => simp [equals] at h
  | pair l r ihl ihr =>
      cases j with
      | pair l' r' =>
          simp only [equals, storedAlike, Bool.and_eq_true] at h hs
          simp only [stream, ihl h.1 hs.1, ihr h.2 hs.2]
      | _ => simp [equals] at h
  | ref i ih =>
      cases j with
      | ref j =>
          simp only [equals, storedAlike] at h hs
          simp only [stream, ih h hs]
      | _ => simp [equals] at h

/-- **Equal ids that are stored alike share one disk-cache key.** -/
theorem getUniqueString_eq_of_equals (hsame : ∀ x y, sameObject x y = true → x = y) {i j : KeyId}
    (h : i.equals sameObject j = true) (hs : i.storedAlike j = true) :
    i.getUniqueString sha = j.getUniqueString sha := by
  rw [getUniqueString, getUniqueString, stream_eq_of_equals hsame h hs]

/-- A request with a file and an empty blob, as an argument of another request. -/
def nestedRequest (empty : Blob) : KeyId :=
  .simple (.request [0x66] [.integer .int32 7,
    .request [0x67] [.blob (.ofFile [1, 2] (some [0x70])), .vector true [.blob empty]]])

/-- It makes no difference whether the data pointer of the empty blob is null. -/
theorem getUniqueString_nestedRequest :
    (nestedRequest (.ofBytes [])).getUniqueString id
      = (nestedRequest { data := [], nullData := true }).getUniqueString id :=
  have hsame : ∀ x y : Argument, (fun _ _ => false : Argument → Argument → Bool) x y = true → x = y :=
    fun _ _ h => nomatch h
  getUniqueString_eq_of_equals hsame (by decide) (by decide)

/-- One request with the bytes in memory, and one with the same bytes in a file. -/
theorem not_getUniqueString_eq :
    ¬ ∀ (sha : Bytes → Bytes) (sameObject : Argument → Argument → Bool),
      Function.Injective sha → (∀ x y, sameObject x y = true → x = y) → ∀ i j : KeyId,
        i.equals sameObject j = true → i.getUniqueString sha = j.getUniqueString sha := by
  intro h
  have heq := h id (fun _ _ => false) Function.injective_id (by simp)
    (.simple (.request [0x66] [.blob (.ofBytes [1])]))
    (.simple (.request [0x66] [.blob (.ofFile [1] (some [0x70]))])) (by decide)
  revert heq
  decide

end KeyId
end Cradle
