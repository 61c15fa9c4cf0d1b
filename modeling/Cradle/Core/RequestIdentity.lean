import Cradle.Core.UniqueHash
import Mathlib.Tactic.Linarith
import Mathlib.Tactic.Positivity

/-!
# Which requests the unique hash tells apart

The arguments of a request are written one after the other with no separators, so
whether unequal argument lists get different streams is a property of their types.
`decodable` decides it: integers and counted vectors of such are self-delimiting;
a string, a blob or a byte vector is not, and what follows it must have a fixed
size for its end to be found; two type-erased sub-requests can be unequal and have
the same stream, since a uuid is not delimited from the arguments after it either.
`streams_separated_iff` shows that this condition is exact, whatever the digest
function.
-/

namespace Cradle

open PrefixCode

/-! ## The condition on the types -/

namespace ArgType

/-- Types whose representation has one fixed size. -/
def isFixed : ArgType → Bool
  | .int _ => true
  | _ => false

/-- Types whose streams can be cut off the front of any stream. -/
def selfDelimiting : ArgType → Bool
  | .int _ => true
  | .vector elem => elem ≠ .int .uint8 && elem.selfDelimiting
  | _ => false

/-- Types written as raw bytes, with neither a size nor an end marker. -/
def openEnded : ArgType → Bool
  | .string => true
  | .blob => true
  | .vector elem => elem = .int .uint8
  | _ => false

/-- The size of a fixed-size type. -/
def width : ArgType → ℕ
  | .int t => t.width
  | _ => 0

end ArgType

/-- Argument types whose concatenated streams determine the arguments: at most one
open-ended argument, and only integers after it. -/
def decodable : List ArgType → Bool
  | [] => true
  | t :: ts => if t.selfDelimiting then decodable ts else t.openEnded && ts.all ArgType.isFixed

/-- The argument types below an id, or `none` when the id contains a type-erased
`id_ref`. -/
def IdType.fields : IdType → Option (List ArgType)
  | .unit => some []
  | .simple t => some [t]
  | .hashed ts => some ts
  | .pair l r => do return (← l.fields) ++ (← r.fields)
  | .ref => none

/-- Id types whose streams determine the id. -/
def IdType.decodable (t : IdType) : Bool := t.fields.any Cradle.decodable

/-! ## What it means to be told apart -/

/-- Unequal argument lists of these types give different request streams. -/
def RequestsSeparated (sha : Bytes → Bytes) (ts : List ArgType) : Prop :=
  ∀ fs uuid xs ys, HasTypes fs xs ts → HasTypes fs ys ts → Arg.allEqual xs ys = false →
    requestStream sha uuid xs ≠ requestStream sha uuid ys

/-- Unequal argument tuples of these types give different `sha256_hashed_id` streams. -/
def HashedIdsSeparated (sha : Bytes → Bytes) (ts : List ArgType) : Prop :=
  ∀ fs xs ys, HasTypes fs xs ts → HasTypes fs ys ts → Arg.allEqual xs ys = false →
    hashedIdStream sha xs ≠ hashedIdStream sha ys

/-- Unequal ids of this type give different streams. -/
def IdsSeparated (sha : Bytes → Bytes) (t : IdType) : Prop :=
  ∀ fs i j, HasIdType fs i t → HasIdType fs j t → i.equals j = false →
    i.stream sha ≠ j.stream sha

/-- Two unequal argument lists of these types with one stream. -/
def Clash (sha : Bytes → Bytes) (fs : Bytes → Bytes) (ts : List ArgType) : Prop :=
  ∃ xs ys, HasTypes fs xs ts ∧ HasTypes fs ys ts ∧ Arg.allEqual xs ys = false ∧
    Arg.streams sha xs = Arg.streams sha ys

section
variable {sha : Bytes → Bytes} {fs : Bytes → Bytes}

/-! ## Equality and streams of argument lists -/

@[simp] theorem streams_nil : Arg.streams sha [] = [] := by simp [Arg.streams]
@[simp] theorem streams_cons (x : Arg) (xs : List Arg) :
    Arg.streams sha (x :: xs) = x.stream sha ++ Arg.streams sha xs := by simp [Arg.streams]

theorem streams_eq_flatMap (xs : List Arg) :
    Arg.streams sha xs = xs.flatMap (Arg.stream sha) := by
  induction xs with
  | nil => rfl
  | cons x xs ih => simp [ih]

@[simp] theorem streams_append (xs ys : List Arg) :
    Arg.streams sha (xs ++ ys) = Arg.streams sha xs ++ Arg.streams sha ys := by
  simp [streams_eq_flatMap]

@[simp] theorem stream_byteVector (xs : List Arg) :
    Arg.stream sha (.vector (.int .uint8) xs) = Arg.streams sha xs := by simp [Arg.stream]

theorem stream_vector {elem : ArgType} (h : elem ≠ .int .uint8) (xs : List Arg) :
    Arg.stream sha (.vector elem xs) = leBytes 8 xs.length ++ Arg.streams sha xs := by
  simp [Arg.stream, h]

theorem allEqual_iff {xs ys : List Arg} :
    Arg.allEqual xs ys = true ↔ List.Forall₂ (fun x y => x.equals y = true) xs ys := by
  induction xs generalizing ys with
  | nil => cases ys <;> simp [Arg.allEqual]
  | cons x xs ih => cases ys <;> simp [Arg.allEqual, ih]

mutual
theorem equals_refl : ∀ x : Arg, x.equals x = true
  | .string _ => by simp [Arg.equals]
  | .int _ _ => by simp [Arg.equals]
  | .blob _ => by simp [Arg.equals]
  | .vector _ xs => by simp [Arg.equals, allEqual_refl xs]
  | .request _ xs => by simp [Arg.equals, allEqual_refl xs]
theorem allEqual_refl : ∀ xs : List Arg, Arg.allEqual xs xs = true
  | [] => by simp [Arg.allEqual]
  | x :: xs => by simp [Arg.allEqual, equals_refl x, allEqual_refl xs]
end

theorem allEqual_append {xs ys zs ws : List Arg} (h : xs.length = ys.length) :
    Arg.allEqual (xs ++ zs) (ys ++ ws) = (Arg.allEqual xs ys && Arg.allEqual zs ws) := by
  induction xs generalizing ys with
  | nil =>
      obtain rfl : ys = [] := List.length_eq_zero_iff.mp h.symm
      simp [Arg.allEqual]
  | cons x xs ih =>
      cases ys with
      | nil => simp at h
      | cons y ys => simp [Arg.allEqual, ih (by simpa using h), Bool.and_assoc]

/-! ## Integers -/

@[simp] theorem length_intStream (t : IntType) (v : ℤ) : (t.stream v).length = t.width := by
  simp [IntType.stream]

theorem intStream_inj {t : IntType} {v v' : ℤ} (hv : t.InRange v) (hv' : t.InRange v')
    (h : t.stream v = t.stream v') : v = v' := by
  obtain ⟨hl, hu⟩ := hv
  obtain ⟨hl', hu'⟩ := hv'
  have hpos : (0 : ℤ) < (256 ^ t.width : ℕ) := by positivity
  have hnat := leBytes_inj (w := t.width) (by
      have := Int.emod_lt_of_pos v hpos; have := Int.emod_nonneg v hpos.ne'; omega) (by
      have := Int.emod_lt_of_pos v' hpos; have := Int.emod_nonneg v' hpos.ne'; omega) h
  have hmod : v % (256 ^ t.width : ℕ) = v' % (256 ^ t.width : ℕ) := by
    have := Int.emod_nonneg v hpos.ne'; have := Int.emod_nonneg v' hpos.ne'; omega
  -- Both values lie in one window of length `256 ^ width`, so equal residues coincide.
  obtain ⟨k, hk⟩ := Int.dvd_of_emod_eq_zero (Int.emod_eq_emod_iff_emod_sub_eq_zero.mp hmod)
  generalize ((256 ^ t.width : ℕ) : ℤ) = m at *
  have hlt : k < 1 := by by_contra hc; nlinarith
  have hgt : -1 < k := by by_contra hc; nlinarith
  obtain rfl : k = 0 := by omega
  simp only [mul_zero] at hk
  omega

/-- Every string of the right size represents a value of the type. -/
theorem exists_intStream (t : IntType) (bs : Bytes) (h : bs.length = t.width) :
    ∃ v, t.InRange v ∧ t.stream v = bs := by
  obtain ⟨n, hn, he⟩ := exists_leBytes bs
  rw [h] at hn he
  have hmod : ((n : ℤ) % (256 ^ t.width : ℕ)).toNat = n := by
    rw [Int.emod_eq_of_lt (by omega) (by exact_mod_cast hn)]; simp
  by_cases hin : t.InRange n
  · exact ⟨n, hin, by simp only [IntType.stream, hmod, he]⟩
  · -- A pattern past the largest signed value stands for a negative number.
    refine ⟨n - (256 ^ t.width : ℕ), ?_, ?_⟩
    · simp only [IntType.InRange, IntType.lowest] at hin ⊢
      generalize 256 ^ t.width = m at *
      split at hin
      · simp_all only [if_true]; omega
      · exact absurd ⟨by omega, by omega⟩ hin
    · simp only [IntType.stream, Int.sub_emod_right, hmod, he]

@[simp] theorem intStream_zero (t : IntType) : t.stream 0 = List.replicate t.width 0 := by
  simp [IntType.stream]

theorem inRange_zero (t : IntType) : t.InRange 0 := by
  cases t <;> decide

@[simp] theorem intStream_uint8 (b : UInt8) : IntType.uint8.stream (b.toNat : ℤ) = [b] := by
  have hb := b.toNat_lt
  have h : ((b.toNat : ℤ) % (256 ^ 1 : ℕ)).toNat = b.toNat := by omega
  simp only [IntType.stream, IntType.width, h, leBytes, UInt8.ofNat_toNat]

theorem inRange_uint8 (b : UInt8) : IntType.uint8.InRange (b.toNat : ℤ) := by
  have hb := b.toNat_lt
  simp only [IntType.InRange, IntType.lowest, IntType.signed, IntType.width, Bool.false_eq_true,
    if_false]
  omega

/-! ## Decodable types: equal streams come from equal arguments -/

theorem selfDelimiting_stream : ∀ t : ArgType, t.selfDelimiting = true →
    SelfDelimiting (Arg.stream sha) (HasType fs · t) (fun x y => x.equals y = true) := by
  intro t
  induction t with
  | string => simp [ArgType.selfDelimiting]
  | blob => simp [ArgType.selfDelimiting]
  | request => simp [ArgType.selfDelimiting]
  | int t =>
      intro _
      refine Separates.selfDelimiting (n := t.width) ?_ ?_
      · rintro _ _ (⟨⟩ | ⟨hv⟩ | _) (⟨⟩ | ⟨hv'⟩ | _) he
        simp only [Arg.stream] at he
        simp [Arg.equals, intStream_inj hv hv' he]
      · rintro _ (⟨⟩ | _)
        simp [Arg.stream]
  | vector elem ih =>
      intro h
      simp only [ArgType.selfDelimiting, ne_eq, Bool.and_eq_true, decide_eq_true_eq] at h
      have hlist := (ih h.2).counted (leBytes_selfDelimiting 8)
      rintro _ _ hx hy r r' he
      cases hx with
      | vector hxs hxn =>
          cases hy with
          | vector hys hyn =>
              rw [stream_vector h.1, stream_vector h.1, streams_eq_flatMap,
                streams_eq_flatMap] at he
              obtain ⟨heq, hr⟩ := hlist ⟨hxn, hxs⟩ ⟨hyn, hys⟩ he
              exact ⟨by simp [Arg.equals, allEqual_iff.mpr heq], hr⟩

theorem separates_openEnded {t : ArgType} (h : t.openEnded = true) :
    Separates (Arg.stream sha) (HasType fs · t) (fun x y => x.equals y = true) := by
  intro x y hx hy he
  cases hx with
  | string s => cases hy; simpa [Arg.stream, Arg.equals] using he
  | int => simp [ArgType.openEnded] at h
  | request => simp [ArgType.openEnded] at h
  | blob hb =>
      cases hy with
      | blob hb' =>
          -- The tag byte tells the two forms apart; equal paths mean equal contents.
          simp only [Arg.stream, Blob.stream] at he
          simp only [Arg.equals, Blob.equals_iff]
          split at he <;> split at he <;> simp_all [Blob.Backed]
  | vector hxs hxn =>
      simp only [ArgType.openEnded, decide_eq_true_eq] at h
      subst h
      cases hy with
      | vector hys hyn =>
          rename_i xs ys
          simp only [stream_byteVector, streams_eq_flatMap] at he
          have hlen : ∀ l : List Arg, (∀ z ∈ l, HasType fs z (.int .uint8)) →
              (l.flatMap (Arg.stream sha)).length = l.length := by
            intro l hl
            induction l with
            | nil => rfl
            | cons z l ih =>
                obtain ⟨⟩ | _ := hl z (by simp)
                simp [Arg.stream, IntType.width, ih fun w hw => hl w (by simp [hw]), Nat.add_comm]
          have hxy : xs.length = ys.length := by rw [← hlen xs hxs, ← hlen ys hys, he]
          have he' : xs.flatMap (Arg.stream sha) ++ [] = ys.flatMap (Arg.stream sha) ++ [] := by
            simpa using he
          obtain ⟨heq, -⟩ := (selfDelimiting_stream (.int .uint8) rfl).flatMap hxs hys hxy he'
          simp [Arg.equals, allEqual_iff.mpr heq]

/-- Streams of fixed-size arguments all have the same length. -/
theorem length_streams_fixed (sha : Bytes → Bytes) {ts : List ArgType}
    (h : ts.all ArgType.isFixed = true) {xs : List Arg} (hx : HasTypes fs xs ts) :
    (Arg.streams sha xs).length = (ts.map ArgType.width).sum := by
  induction hx with
  | nil => rfl
  | @cons x t xs ts hxt _ ih =>
      simp only [List.all_cons, Bool.and_eq_true] at h
      cases hxt <;> simp_all [ArgType.isFixed, ArgType.width, Arg.stream]

theorem decodable_of_fixed {ts : List ArgType} (h : ts.all ArgType.isFixed = true) :
    decodable ts = true := by
  induction ts with
  | nil => rfl
  | cons t ts ih =>
      simp only [List.all_cons, Bool.and_eq_true] at h
      cases t <;> simp_all [ArgType.isFixed, decodable, ArgType.selfDelimiting]

theorem separates_decodable {ts : List ArgType} (h : decodable ts = true) :
    Separates (Arg.streams sha) (HasTypes fs · ts) (fun xs ys => Arg.allEqual xs ys = true) := by
  induction ts with
  | nil =>
      intro xs ys hx hy _
      cases hx; cases hy
      rfl
  | cons t ts ih =>
      intro xs ys hx hy he
      obtain _ | ⟨hx, hxs⟩ := hx
      obtain _ | ⟨hy, hys⟩ := hy
      simp only [streams_cons] at he
      simp only [decodable] at h
      split at h
      · next hself =>
          obtain ⟨hxy, he⟩ := selfDelimiting_stream t hself hx hy he
          simp [Arg.allEqual, hxy, ih h hxs hys he]
      · -- The open-ended argument ends where the fixed-size remainder starts.
        simp only [Bool.and_eq_true] at h
        have hlen : _ = _ := (length_streams_fixed sha h.2 hxs).trans
          (length_streams_fixed sha h.2 hys).symm
        obtain ⟨hxy, he⟩ := (separates_openEnded h.1).endDelimited hx hy hlen he
        simp [Arg.allEqual, hxy, ih (decodable_of_fixed h.2) hxs hys he]

/-! ## Other types: unequal arguments with one stream -/

/-- A value of the type; written as zero bytes unless the type has sub-requests. -/
def zeroArg : ArgType → Arg
  | .string => .string []
  | .int t => .int t 0
  | .blob => .blob (.ofBytes [])
  | .vector elem => .vector elem []
  | .request => .request [] []

theorem hasType_zeroArg : ∀ t, HasType fs (zeroArg t) t
  | .string => .string _
  | .int t => .int (inRange_zero t)
  | .blob => .blob (Blob.backed_ofBytes fs _)
  | .vector _ => .vector (by simp) (by simp)
  | .request => .request (by simp)

theorem hasTypes_zeroArgs (ts : List ArgType) : HasTypes fs (ts.map zeroArg) ts := by
  induction ts with
  | nil => exact .nil
  | cons t ts ih => exact .cons (hasType_zeroArg t) ih

theorem streams_zeroArgs_fixed {ts : List ArgType} (h : ts.all ArgType.isFixed = true) :
    Arg.streams sha (ts.map zeroArg) = List.replicate (ts.map ArgType.width).sum 0 := by
  induction ts with
  | nil => rfl
  | cons t ts ih =>
      simp only [List.all_cons, Bool.and_eq_true] at h
      cases t <;> simp_all [ArgType.isFixed, ArgType.width, zeroArg, Arg.stream,
        List.replicate_append_replicate]

/-- A self-delimiting zero value is a short non-empty string of zero bytes. -/
theorem stream_zeroArg_selfDelimiting (sha : Bytes → Bytes) {t : ArgType}
    (h : t.selfDelimiting = true) :
    ∃ m, 1 ≤ m ∧ m ≤ 8 ∧ Arg.stream sha (zeroArg t) = List.replicate m 0 := by
  cases t with
  | string => simp [ArgType.selfDelimiting] at h
  | blob => simp [ArgType.selfDelimiting] at h
  | request => simp [ArgType.selfDelimiting] at h
  | int t =>
      refine ⟨t.width, ?_, ?_, by simp [zeroArg, Arg.stream]⟩ <;> cases t <;> decide
  | vector elem =>
      simp only [ArgType.selfDelimiting, ne_eq, Bool.and_eq_true, decide_eq_true_eq] at h
      exact ⟨8, by omega, le_rfl, by simp [zeroArg, stream_vector h.1]⟩

/-- Any string of the right length is the stream of some fixed-size arguments. -/
theorem exists_streams_fixed (sha fs : Bytes → Bytes) {ts : List ArgType}
    (h : ts.all ArgType.isFixed = true) (bs : Bytes)
    (hlen : bs.length = (ts.map ArgType.width).sum) :
    ∃ xs, HasTypes fs xs ts ∧ Arg.streams sha xs = bs := by
  induction ts generalizing bs with
  | nil => exact ⟨[], .nil, by simpa [eq_comm] using hlen⟩
  | cons t ts ih =>
      simp only [List.all_cons, Bool.and_eq_true] at h
      cases t with
      | int t =>
          simp only [List.map_cons, List.sum_cons, ArgType.width] at hlen
          obtain ⟨v, hv, hve⟩ := exists_intStream t (bs.take t.width) (by simp; omega)
          obtain ⟨xs, hxs, hxe⟩ := ih h.2 (bs.drop t.width) (by simp; omega)
          exact ⟨.int t v :: xs, .cons (.int hv) hxs, by simp [Arg.stream, hve, hxe]⟩
      | _ => simp [ArgType.isFixed] at h

/-- The argument of an open-ended type that holds the given bytes. -/
def openArg : ArgType → Bytes → Arg
  | .blob, bs => .blob (.ofBytes bs)
  | .vector elem, bs => .vector elem (bs.map fun b => .int .uint8 b.toNat)
  | _, bs => .string bs

/-- The tag written before the bytes of an open-ended argument. -/
def openTag : ArgType → Bytes
  | .blob => [0]
  | _ => []

theorem openTag_eq_replicate (t : ArgType) : openTag t = List.replicate (openTag t).length 0 := by
  cases t <;> rfl

theorem hasType_openArg {t : ArgType} (h : t.openEnded = true) {bs : Bytes}
    (hlen : bs.length < 256 ^ 8) : HasType fs (openArg t bs) t := by
  cases t with
  | string => exact .string _
  | blob => exact .blob (Blob.backed_ofBytes fs _)
  | int => simp [ArgType.openEnded] at h
  | request => simp [ArgType.openEnded] at h
  | vector elem =>
      simp only [ArgType.openEnded, decide_eq_true_eq] at h
      subst h
      refine .vector (fun x hx => ?_) (by simpa using hlen)
      obtain ⟨b, -, rfl⟩ := List.mem_map.mp hx
      exact .int (inRange_uint8 b)

theorem stream_openArg {t : ArgType} (h : t.openEnded = true) (bs : Bytes) :
    Arg.stream sha (openArg t bs) = openTag t ++ bs := by
  cases t with
  | string => simp [openArg, openTag, Arg.stream]
  | blob => simp [openArg, openTag, Arg.stream, Blob.stream]
  | int => simp [ArgType.openEnded] at h
  | request => simp [ArgType.openEnded] at h
  | vector elem =>
      simp only [ArgType.openEnded, decide_eq_true_eq] at h
      subst h
      have hbs : (bs.map fun b => Arg.int .uint8 (b.toNat : ℤ)).flatMap (Arg.stream sha) = bs := by
        induction bs with
        | nil => rfl
        | cons b bs ih => simp [Arg.stream, ih]
      simp [openArg, openTag, streams_eq_flatMap, hbs]

theorem equals_openArg {t : ArgType} {bs bs' : Bytes} (hlen : bs.length ≠ bs'.length) :
    (openArg t bs).equals (openArg t bs') = false := by
  have hne : bs ≠ bs' := fun h => hlen (by rw [h])
  cases t <;> simp only [openArg, Arg.equals, Blob.equals, Blob.data_ofBytes, beq_eq_false_iff_ne,
    ne_eq, hne, not_false_eq_true, beq_self_eq_true, Bool.true_and]
  by_contra hc
  simp only [Bool.not_eq_false, allEqual_iff] at hc
  exact hlen (by simpa using hc.length_eq)

theorem Clash.cons {ts : List ArgType} (h : Clash sha fs ts) (t : ArgType) :
    Clash sha fs (t :: ts) := by
  obtain ⟨xs, ys, hx, hy, hne, he⟩ := h
  exact ⟨zeroArg t :: xs, zeroArg t :: ys, .cons (hasType_zeroArg t) hx,
    .cons (hasType_zeroArg t) hy, by simp [Arg.allEqual, hne], by simp [he]⟩

theorem Clash.append {ts : List ArgType} (h : Clash sha fs ts) (ts' : List ArgType) :
    Clash sha fs (ts ++ ts') := by
  obtain ⟨xs, ys, hx, hy, hne, he⟩ := h
  refine ⟨xs ++ ts'.map zeroArg, ys ++ ts'.map zeroArg,
    List.rel_append hx (hasTypes_zeroArgs ts'), List.rel_append hy (hasTypes_zeroArgs ts'), ?_, ?_⟩
  · rw [allEqual_append (hx.length_eq.trans hy.length_eq.symm), hne, Bool.false_and]
  · simp [he]

theorem Clash.appendLeft {ts : List ArgType} (h : Clash sha fs ts) (pre : List ArgType) :
    Clash sha fs (pre ++ ts) := by
  induction pre with
  | nil => exact h
  | cons t pre ih => exact ih.cons t

theorem exists_first_not_fixed {ts : List ArgType} (h : ts.all ArgType.isFixed = false) :
    ∃ pre u post, ts = pre ++ u :: post ∧ pre.all ArgType.isFixed = true ∧ u.isFixed = false := by
  induction ts with
  | nil => simp at h
  | cons t ts ih =>
      by_cases ht : t.isFixed = true
      · obtain ⟨pre, u, post, rfl, hpre, hu⟩ := ih (by simpa [ht] using h)
        exact ⟨t :: pre, u, post, rfl, by simp [ht, hpre], hu⟩
      · exact ⟨[], t, ts, rfl, rfl, by simpa using ht⟩

/-- Two open-ended arguments with fixed-size ones in between: a zero byte can be
moved from the end of one to the start of the other. -/
theorem clash_open_open (sha fs : Bytes → Bytes) {t u : ArgType} (ts : List ArgType)
    (ht : t.openEnded = true) (hu : u.openEnded = true) (hts : ts.all ArgType.isFixed = true) :
    Clash sha fs (t :: (ts ++ [u])) := by
  refine ⟨openArg t [] :: (ts.map zeroArg ++ [openArg u [0]]),
    openArg t [0] :: (ts.map zeroArg ++ [openArg u []]), ?_, ?_, ?_, ?_⟩
  · exact .cons (hasType_openArg ht (by simp)) (List.rel_append (hasTypes_zeroArgs ts)
      (.cons (hasType_openArg hu (by simp)) .nil))
  · exact .cons (hasType_openArg ht (by simp)) (List.rel_append (hasTypes_zeroArgs ts)
      (.cons (hasType_openArg hu (by simp)) .nil))
  · simp [Arg.allEqual, equals_openArg]
  · have h1 : ([0] : Bytes) = List.replicate 1 0 := rfl
    simp only [streams_cons, streams_append, streams_nil, stream_openArg ht, stream_openArg hu,
      streams_zeroArgs_fixed hts, List.append_nil, List.append_assoc, List.append_cancel_left_eq]
    rw [openTag_eq_replicate u, h1]
    simp only [List.replicate_append_replicate]
    congr 1; omega

/-- An open-ended argument and a counted vector with fixed-size ones in between: the
bytes of eight zero elements can also be read as part of the open-ended argument. -/
theorem clash_open_vector {t elem : ArgType} {ts : List ArgType} (ht : t.openEnded = true)
    (hu : (ArgType.vector elem).selfDelimiting = true) (hts : ts.all ArgType.isFixed = true) :
    Clash sha fs (t :: (ts ++ [.vector elem])) := by
  simp only [ArgType.selfDelimiting, ne_eq, Bool.and_eq_true, decide_eq_true_eq] at hu
  obtain ⟨m, hm1, hm8, hzero⟩ := stream_zeroArg_selfDelimiting sha hu.2
  have height : Arg.streams sha (List.replicate 8 (zeroArg elem)) = List.replicate (8 * m) 0 := by
    simp only [streams_eq_flatMap, List.replicate, List.flatMap_cons, List.flatMap_nil, hzero,
      List.append_nil, List.replicate_append_replicate]
    congr 1; omega
  -- Everything after the tag when the open-ended argument is empty.
  set w := (ts.map ArgType.width).sum with hw
  set z : Bytes := List.replicate w 0 ++ (leBytes 8 8 ++ List.replicate (8 * m) 0) with hz
  have hzlen : z.length = w + (8 + 8 * m) := by simp [hz]
  obtain ⟨mid, hmid, hmide⟩ := exists_streams_fixed sha fs hts
    ((z.drop (8 * m)).take w) (by simp [hzlen, hw]; omega)
  have htail : z.drop (8 * m + w) = List.replicate 8 0 := by
    have hsplit : z = (List.replicate w 0 ++ (leBytes 8 8 ++ List.replicate (8 * m - 8) 0)) ++
        List.replicate 8 0 := by
      simp only [hz, List.append_assoc, List.replicate_append_replicate]
      congr 4; omega
    rw [hsplit, List.drop_append_of_le_length (by simp; omega),
      List.drop_eq_nil_of_le (by simp; omega)]
    rfl
  refine ⟨openArg t [] :: (ts.map zeroArg ++ [.vector elem (List.replicate 8 (zeroArg elem))]),
    openArg t (z.take (8 * m)) :: (mid ++ [.vector elem []]), ?_, ?_, ?_, ?_⟩
  · refine .cons (hasType_openArg ht (by simp)) (List.rel_append (hasTypes_zeroArgs ts)
      (.cons (.vector (fun x hx => ?_) (by simp)) .nil))
    rw [(List.mem_replicate.mp hx).2]
    exact hasType_zeroArg elem
  · refine .cons (hasType_openArg ht ?_) (List.rel_append hmid
      (.cons (hasType_zeroArg (.vector elem)) .nil))
    have : (z.take (8 * m)).length ≤ 8 * m := List.length_take_le _ _
    omega
  · have hne : (openArg t []).equals (openArg t (z.take (8 * m))) = false :=
      equals_openArg (by simp [hzlen]; omega)
    simp [Arg.allEqual, hne]
  · simp only [streams_cons, streams_append, streams_nil, stream_openArg ht, stream_vector hu.1,
      streams_zeroArgs_fixed hts, height, hmide, List.append_nil, List.append_assoc,
      List.append_cancel_left_eq, List.length_replicate, List.length_nil, leBytes_zero]
    rw [← htail, ← List.drop_drop, List.take_append_drop, List.take_append_drop, ← hw, ← hz]

/-- A short list of elements of one type makes a vector. -/
theorem hasType_vector {elem : ArgType} {n : ℕ} {xs : List Arg}
    (hx : HasTypes fs xs (List.replicate n elem)) (hn : n < 256 ^ 8) :
    HasType fs (.vector elem xs) (.vector elem) := by
  refine .vector (fun x hmem => ?_) ?_
  · obtain ⟨i, hi, rfl⟩ := List.mem_iff_getElem.mp hmem
    have := List.Forall₂.get hx hi (by rw [← hx.length_eq]; exact hi)
    simpa using this
  · rw [hx.length_eq]; simpa using hn

/-- A type that is neither self-delimiting nor open-ended has two unequal values
with one stream. -/
theorem clash_singleton : ∀ {t : ArgType}, t.selfDelimiting = false → t.openEnded = false →
    Clash sha fs [t] := by
  intro t
  induction t with
  | string => simp [ArgType.openEnded]
  | blob => simp [ArgType.openEnded]
  | int => simp [ArgType.selfDelimiting]
  | request =>
      -- The two strings below a type-erased sub-request already clash.
      intro _ _
      obtain ⟨xs, ys, hx, hy, hne, he⟩ := clash_open_open sha fs (t := .string)
        (u := .string) [] rfl rfl rfl
      have typed : ∀ {zs : List Arg}, HasTypes fs zs [.string, .string] →
          ∀ z ∈ zs, HasType fs z z.type := by
        rintro _ (_ | ⟨⟨⟩, _ | ⟨⟨⟩, ⟨⟩⟩⟩) z hz
        simp only [List.mem_cons, List.not_mem_nil, or_false] at hz
        rcases hz with rfl | rfl <;> exact .string _
      refine ⟨[.request [102] xs], [.request [102] ys], .cons (.request (typed hx)) .nil,
        .cons (.request (typed hy)) .nil, by simp [Arg.allEqual, Arg.equals, hne], ?_⟩
      simp [Arg.stream, he]
  | vector elem ih =>
      intro hs ho
      simp only [ArgType.selfDelimiting, ArgType.openEnded, decide_eq_false_iff_not] at hs ho
      have hself : elem.selfDelimiting = false := by simpa [ho] using hs
      by_cases hopen : elem.openEnded = true
      · obtain ⟨xs, ys, hx, hy, hne, he⟩ :=
          clash_open_open sha fs [] hopen hopen rfl
        exact ⟨[.vector elem xs], [.vector elem ys],
          .cons (hasType_vector (n := 2) hx (by norm_num)) .nil,
          .cons (hasType_vector (n := 2) hy (by norm_num)) .nil,
          by simp [Arg.allEqual, Arg.equals, hne],
          by simp [stream_vector ho, he, hx.length_eq, hy.length_eq]⟩
      · obtain ⟨xs, ys, hx, hy, hne, he⟩ := ih hself (by simpa using hopen)
        exact ⟨[.vector elem xs], [.vector elem ys],
          .cons (hasType_vector (n := 1) hx (by norm_num)) .nil,
          .cons (hasType_vector (n := 1) hy (by norm_num)) .nil,
          by simp [Arg.allEqual, Arg.equals, hne],
          by simp [stream_vector ho, he, hx.length_eq, hy.length_eq]⟩

theorem clash_of_not_decodable (sha fs : Bytes → Bytes) {ts : List ArgType}
    (h : decodable ts = false) :
    Clash sha fs ts := by
  induction ts with
  | nil => simp [decodable] at h
  | cons t ts ih =>
      simp only [decodable] at h
      split at h
      · exact (ih h).cons t
      · next hself =>
          by_cases hopen : t.openEnded = true
          · -- Cut the remaining types at the first one that is not of fixed size.
            have hfix : ts.all ArgType.isFixed = false := by simpa [hopen] using h
            obtain ⟨pre, u, post, rfl, hpre, hu⟩ := exists_first_not_fixed hfix
            have hcut : t :: (pre ++ u :: post) = t :: (pre ++ [u]) ++ post := by simp
            rw [hcut]
            refine Clash.append ?_ post
            cases u with
            | int => simp [ArgType.isFixed] at hu
            | string => exact clash_open_open sha fs pre hopen rfl hpre
            | blob => exact clash_open_open sha fs pre hopen rfl hpre
            | request => exact ((clash_singleton rfl rfl).appendLeft pre).cons t
            | vector elem =>
                by_cases ho : (ArgType.vector elem).openEnded = true
                · exact clash_open_open sha fs pre hopen ho hpre
                by_cases hs : (ArgType.vector elem).selfDelimiting = true
                · exact clash_open_vector hopen hs hpre
                · exact ((clash_singleton (by simpa using hs)
                    (by simpa using ho)).appendLeft pre).cons t
          · exact (clash_singleton (by simpa using hself) (by simpa using hopen)).append ts

/-! ## Ids reduce to their argument lists -/

/-- The arguments below an id, in the order in which they are hashed. -/
def Id.fields : Id → List Arg
  | .unit => []
  | .simple v => [v]
  | .hashed args => args
  | .pair l r => l.fields ++ r.fields
  | .ref id => id.fields

theorem Id.stream_eq (i : Id) : i.stream sha = Arg.streams sha i.fields := by
  induction i with
  | unit => rfl
  | simple v => simp [Id.stream, Id.fields]
  | hashed args => rfl
  | pair l r ihl ihr => simp [Id.stream, Id.fields, ihl, ihr]
  | ref id ih => simpa [Id.stream, Id.fields] using ih

theorem IdType.fields_pair {l r : IdType} {ts : List ArgType}
    (h : (IdType.pair l r).fields = some ts) :
    ∃ tl tr, l.fields = some tl ∧ r.fields = some tr ∧ ts = tl ++ tr := by
  simp only [IdType.fields] at h
  cases hl : l.fields <;> cases hr : r.fields <;> simp_all

theorem hasTypes_fields {i : Id} {t : IdType} (hi : HasIdType fs i t) :
    ∀ {ts : List ArgType}, t.fields = some ts → HasTypes fs i.fields ts := by
  induction hi with
  | unit => rintro ts ⟨⟩; exact .nil
  | simple h => rintro ts ⟨⟩; exact .cons h .nil
  | hashed h => rintro ts ⟨⟩; exact h
  | pair _ _ ihl ihr =>
      intro ts h
      obtain ⟨tl, tr, hl, hr, rfl⟩ := IdType.fields_pair h
      exact List.rel_append (ihl hl) (ihr hr)
  | ref => rintro ts ⟨⟩

theorem exists_id_of_fields : ∀ {t : IdType} {ts : List ArgType}, t.fields = some ts →
    ∀ {xs : List Arg}, HasTypes fs xs ts → ∃ i, HasIdType fs i t ∧ i.fields = xs := by
  intro t
  induction t with
  | unit => rintro ts ⟨⟩ xs ⟨⟩; exact ⟨.unit, .unit, rfl⟩
  | simple t => rintro ts ⟨⟩ xs (_ | ⟨h, ⟨⟩⟩); exact ⟨.simple _, .simple h, rfl⟩
  | hashed ts => rintro ts ⟨⟩ xs h; exact ⟨.hashed xs, .hashed h, rfl⟩
  | ref => rintro ts ⟨⟩
  | pair l r ihl ihr =>
      intro ts h xs hx
      obtain ⟨tl, tr, hl, hr, rfl⟩ := IdType.fields_pair h
      obtain ⟨i, hi, hie⟩ := ihl hl (List.forall₂_take_append xs tl tr hx)
      obtain ⟨j, hj, hje⟩ := ihr hr (List.forall₂_drop_append xs tl tr hx)
      exact ⟨.pair i j, .pair hi hj, by simp [Id.fields, hie, hje]⟩

theorem Id.equals_eq {i j : Id} {t : IdType} (hi : HasIdType fs i t) :
    HasIdType fs j t → ∀ {ts : List ArgType}, t.fields = some ts →
      i.equals j = Arg.allEqual i.fields j.fields := by
  induction hi generalizing j with
  | unit => rintro ⟨⟩ ts -; rfl
  | simple => rintro ⟨⟩ ts -; simp [Id.equals, Id.fields, Arg.allEqual]
  | hashed => rintro ⟨⟩ ts -; rfl
  | ref => rintro - ts ⟨⟩
  | pair hl hr ihl ihr =>
      intro hj ts h
      obtain ⟨tl, tr, htl, htr, rfl⟩ := IdType.fields_pair h
      cases hj with
      | pair hl' hr' =>
          have hlen := (hasTypes_fields hl htl).length_eq.trans
            (hasTypes_fields hl' htl).length_eq.symm
          simp only [Id.equals, Id.fields, allEqual_append hlen, ihl hl' htl, ihr hr' htr]

/-- Every id type has a value. -/
theorem exists_id (fs : Bytes → Bytes) : ∀ t : IdType, ∃ i, HasIdType fs i t
  | .unit => ⟨_, .unit⟩
  | .simple t => ⟨_, .simple (hasType_zeroArg t)⟩
  | .hashed ts => ⟨_, .hashed (hasTypes_zeroArgs ts)⟩
  | .pair l r => ⟨_, .pair (exists_id fs l).choose_spec (exists_id fs r).choose_spec⟩
  | .ref => ⟨_, .ref .unit⟩

/-- A type-erased reference hides which id it refers to: an empty string and a unit
id have the same, empty, stream. -/
theorem exists_clash_ref (sha fs : Bytes → Bytes) : ∀ {t : IdType}, t.fields = none →
    ∃ i j, HasIdType fs i t ∧ HasIdType fs j t ∧ i.equals j = false
      ∧ i.stream sha = j.stream sha := by
  intro t
  induction t with
  | unit => rintro ⟨⟩
  | simple => rintro ⟨⟩
  | hashed => rintro ⟨⟩
  | ref =>
      intro _
      exact ⟨.ref (.simple (.string [])), .ref .unit, .ref (.simple (.string _)), .ref .unit,
        rfl, by simp [Id.stream, Arg.stream]⟩
  | pair l r ihl ihr =>
      intro h
      by_cases hl : l.fields = none
      · obtain ⟨i, j, hi, hj, hne, he⟩ := ihl hl
        obtain ⟨k, hk⟩ := exists_id fs r
        exact ⟨.pair i k, .pair j k, .pair hi hk, .pair hj hk, by simp [Id.equals, hne],
          by simp [Id.stream, he]⟩
      · obtain ⟨i, j, hi, hj, hne, he⟩ := ihr (by
          cases hl' : l.fields <;> cases hr' : r.fields <;> simp_all [IdType.fields])
        obtain ⟨k, hk⟩ := exists_id fs l
        exact ⟨.pair k i, .pair k j, .pair hk hi, .pair hk hj, by simp [Id.equals, hne],
          by simp [Id.stream, he]⟩

/-! ## The characterisation -/

theorem hashedIdsSeparated_iff (sha : Bytes → Bytes) (ts : List ArgType) :
    HashedIdsSeparated sha ts ↔ decodable ts = true := by
  constructor
  · intro h
    by_contra hd
    obtain ⟨xs, ys, hx, hy, hne, he⟩ :=
      clash_of_not_decodable sha (fun _ => []) (by simpa using hd)
    exact h _ xs ys hx hy hne he
  · intro h fs xs ys hx hy hne he
    simp [separates_decodable h hx hy he] at hne

theorem requestsSeparated_iff_hashedIdsSeparated (sha : Bytes → Bytes) (ts : List ArgType) :
    RequestsSeparated sha ts ↔ HashedIdsSeparated sha ts := by
  simp only [RequestsSeparated, HashedIdsSeparated, requestStream, hashedIdStream, ne_eq,
    List.append_cancel_left_eq]
  exact ⟨fun h fs => h fs [], fun h fs _ => h fs⟩

theorem idsSeparated_iff (sha : Bytes → Bytes) (t : IdType) :
    IdsSeparated sha t ↔ t.decodable = true := by
  cases hf : t.fields with
  | none =>
      obtain ⟨i, j, hi, hj, hne, he⟩ := exists_clash_ref sha (fun _ => []) hf
      simp only [IdType.decodable, hf, Option.any_none, Bool.false_eq_true, iff_false]
      exact fun h => h _ i j hi hj hne he
  | some ts =>
      simp only [IdType.decodable, hf, Option.any_some, ← hashedIdsSeparated_iff sha ts]
      constructor
      · intro h fs xs ys hx hy hne he
        obtain ⟨i, hi, rfl⟩ := exists_id_of_fields hf hx
        obtain ⟨j, hj, rfl⟩ := exists_id_of_fields hf hy
        refine h fs i j hi hj (by rw [Id.equals_eq hi hj hf, hne]) ?_
        rw [Id.stream_eq, Id.stream_eq]
        exact he
      · intro h fs i j hi hj hne he
        rw [Id.equals_eq hi hj hf] at hne
        simp only [Id.stream_eq] at he
        exact h fs _ _ (hasTypes_fields hi hf) (hasTypes_fields hj hf) hne he

end

end Cradle
