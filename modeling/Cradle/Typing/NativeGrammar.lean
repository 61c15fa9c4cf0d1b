import Cradle.Core.RequestIdentity
import Cradle.Typing.NativeEncoding

/-!
# What the native decoder accepts

An encoding is a tree of nodes: a 32-bit type tag with its payload, which for arrays and
maps starts with the number of nodes that follow.  The grammar has the tags 0 to 8.  The
switch of the decoder has no case for any other tag, so a node with such a tag is taken as
one without a payload; `NativeTree` has these nodes too, and a tree is of the grammar when it
has none.
-/

namespace Cradle
namespace Dynamic

/-! ## The grammar -/

/-- A type tag with its payload.  The types without a length field share one constructor. -/
inductive NativeTree
  | fixed (type : ValueType) (payload : Bytes)
  | string (s : Bytes)
  | blob (data : Bytes)
  | array (items : List NativeTree)
  | map (fields : List (NativeTree × NativeTree))
  | unknown (tag : ℕ)

/-- The size of the payload of a type without a length field. -/
def fixedSize : ValueType → Option ℕ
  | .nil => some 0
  | .boolean => some 1
  | .integer | .float | .datetime => some 8
  | .string | .blob | .array | .map => none

namespace NativeTree

mutual
/-- The bytes of a tree. -/
def bytes : NativeTree → Bytes
  | fixed type payload => writeType type ++ payload
  | string s => writeType .string ++ (writeInt .uint32 s.length ++ s)
  | blob data => writeType .blob ++ (IntType.uint64.stream data.length ++ data)
  | array items => writeType .array ++ (IntType.uint64.stream items.length ++ itemsBytes items)
  | map fields => writeType .map ++ (IntType.uint64.stream fields.length ++ fieldsBytes fields)
  | unknown tag => IntType.uint32.stream tag
def itemsBytes : List NativeTree → Bytes
  | [] => []
  | t :: ts => t.bytes ++ itemsBytes ts
def fieldsBytes : List (NativeTree × NativeTree) → Bytes
  | [] => []
  | (k, x) :: fs => (k.bytes ++ x.bytes) ++ fieldsBytes fs
end

/-- Payloads have their sizes, and lengths and counts fit their fields. -/
inductive Complete : NativeTree → Prop
  | fixed {type : ValueType} {payload : Bytes} (h : fixedSize type = some payload.length) :
      Complete (fixed type payload)
  | string {s : Bytes} (h : s.length < 2 ^ 32) : Complete (string s)
  | blob {data : Bytes} (h : data.length < 2 ^ 64) : Complete (blob data)
  | array {items : List NativeTree} (h : items.length < 2 ^ 64)
      (items_complete : ∀ t ∈ items, Complete t) : Complete (array items)
  | map {fields : List (NativeTree × NativeTree)} (h : fields.length < 2 ^ 64)
      (keys : ∀ f ∈ fields, Complete f.1) (values : ∀ f ∈ fields, Complete f.2) :
      Complete (map fields)
  | unknown {tag : ℕ} (h : 8 < tag) (fits : tag < 2 ^ 32) : Complete (unknown tag)

/-- Every tag in the tree is one of the grammar. -/
inductive Known : NativeTree → Prop
  | fixed (type : ValueType) (payload : Bytes) : Known (fixed type payload)
  | string (s : Bytes) : Known (string s)
  | blob (data : Bytes) : Known (blob data)
  | array {items : List NativeTree} (h : ∀ t ∈ items, Known t) : Known (array items)
  | map {fields : List (NativeTree × NativeTree)} (keys : ∀ f ∈ fields, Known f.1)
      (values : ∀ f ∈ fields, Known f.2) : Known (map fields)

end NativeTree

/-- The bytes form a value of the native grammar. -/
def InGrammar (bs : Bytes) : Prop := ∃ t : NativeTree, t.Complete ∧ t.Known ∧ t.bytes = bs

/-! ## Every accepted input starts with a tree -/

namespace NativeTree

theorem itemsBytes_eq_flatMap (items : List NativeTree) :
    itemsBytes items = items.flatMap bytes := by
  induction items with
  | nil => rfl
  | cons t ts ih => rw [itemsBytes, ih, List.flatMap_cons]

theorem fieldsBytes_eq_flatMap (fields : List (NativeTree × NativeTree)) :
    fieldsBytes fields = fields.flatMap fun f => f.1.bytes ++ f.2.bytes := by
  induction fields with
  | nil => rfl
  | cons f fs ih => rw [fieldsBytes, ih, List.flatMap_cons]

end NativeTree

section Accepts
variable {ε : Type} (corruptData : ε)

/-- An integer is read from its object representation. -/
theorem acceptsOnly_rawReadInt (t : IntType) :
    (rawReadInt corruptData t).AcceptsOnly fun i out => t.InRange i ∧ t.stream i = out := by
  refine (Decoder.AcceptsOnly.take corruptData t.width).map ?_
  rintro bs _ ⟨rfl, hlen⟩
  obtain ⟨i, hi, hstream⟩ := exists_intStream t bs hlen
  rw [← hstream, IntType.ofStream_stream hi]
  exact ⟨hi, rfl⟩

theorem acceptsOnly_readInt (t : IntType) :
    (readInt corruptData t).AcceptsOnly fun i out => t.InRange i ∧ writeInt t i = out := by
  refine (Decoder.AcceptsOnly.take corruptData t.width).map ?_
  rintro bs _ ⟨rfl, hlen⟩
  obtain ⟨i, hi, hstream⟩ := exists_intStream t bs.reverse (by rwa [List.length_reverse])
  rw [IntType.ofBigEndian, ← hstream, IntType.ofStream_stream hi, writeInt, IntType.bigEndian,
    hstream, List.reverse_reverse]
  exact ⟨hi, rfl⟩

/-- A number that is not negative, as the length it stands for. -/
theorem IntType.inRange_toNat {t : IntType} (h : t.signed = false) {i : ℤ} (hi : t.InRange i) :
    i.toNat < 256 ^ t.width ∧ (i.toNat : ℤ) = i := by
  have hlow : t.lowest = 0 := by simp [IntType.lowest, h]
  rw [IntType.InRange, hlow] at hi
  omega

/-- A payload of a given size after its length. -/
theorem acceptsOnly_readSizedString :
    (readSizedString corruptData .uint32).AcceptsOnly fun s out =>
      s.length < 2 ^ 32 ∧ writeInt .uint32 s.length ++ s = out := by
  refine (acceptsOnly_readInt corruptData .uint32).bind ?_
  rintro i _ ⟨hi, rfl⟩
  obtain ⟨hlt, hcast⟩ := IntType.inRange_toNat rfl hi
  refine (Decoder.AcceptsOnly.take corruptData i.toNat).mono ?_
  rintro s _ ⟨rfl, hlen⟩
  rw [hlen, hcast]
  exact ⟨hlt, rfl⟩

end Accepts

/-- A tree with the bytes. -/
def IsTree (bs : Bytes) : Prop := ∃ t : NativeTree, t.Complete ∧ t.bytes = bs

/-- The trees of the items. -/
theorem exists_trees {vs : List Dynamic} {outs : List Bytes}
    (h : List.Forall₂ (fun _ out => IsTree out) vs outs) :
    ∃ items : List NativeTree, (∀ t ∈ items, t.Complete) ∧ items.length = vs.length ∧
      NativeTree.itemsBytes items = outs.flatten := by
  induction h with
  | nil => exact ⟨[], by simp, rfl, rfl⟩
  | cons hout _ ih =>
      obtain ⟨t, ht, rfl⟩ := hout
      obtain ⟨ts, hts, hlen, hbytes⟩ := ih
      refine ⟨t :: ts, List.forall_mem_cons.mpr ⟨ht, hts⟩, by simp [hlen], ?_⟩
      rw [NativeTree.itemsBytes, hbytes, List.flatten_cons]

theorem exists_fieldTrees {vs : List (Dynamic × Dynamic)} {outs : List Bytes}
    (h : List.Forall₂ (fun _ out => ∃ key value, IsTree key ∧ IsTree value ∧ key ++ value = out)
      vs outs) :
    ∃ fields : List (NativeTree × NativeTree), (∀ f ∈ fields, f.1.Complete ∧ f.2.Complete) ∧
      fields.length = vs.length ∧ NativeTree.fieldsBytes fields = outs.flatten := by
  induction h with
  | nil => exact ⟨[], by simp, rfl, rfl⟩
  | cons hout _ ih =>
      obtain ⟨_, _, ⟨k, hk, rfl⟩, ⟨x, hx, rfl⟩, rfl⟩ := hout
      obtain ⟨fs, hfs, hlen, hbytes⟩ := ih
      refine ⟨(k, x) :: fs, List.forall_mem_cons.mpr ⟨⟨hk, hx⟩, hfs⟩, by simp [hlen], ?_⟩
      rw [NativeTree.fieldsBytes, hbytes, List.flatten_cons]

/-- The payload that is read after a tag makes a tree with it. -/
theorem acceptsOnly_readPayload {readNested : Decoder CorruptData UInt8 Dynamic}
    (h : readNested.AcceptsOnly fun _ out => IsTree out) {tag : ℕ} (htag : tag < 2 ^ 32) :
    (readPayload readNested tag).AcceptsOnly fun _ out =>
      IsTree (IntType.uint32.stream tag ++ out) := by
  have hfixed : ∀ (type : ValueType) {t : IntType} (g : ℤ → Dynamic),
      fixedSize type = some t.width →
      ((rawReadInt CorruptData.corruptData t) >>= fun i => pure (g i)).AcceptsOnly fun _ out =>
        IsTree (writeType type ++ out) := by
    intro type t g hsize
    refine (acceptsOnly_rawReadInt CorruptData.corruptData t).map ?_
    rintro i _ ⟨-, rfl⟩
    exact ⟨.fixed type (t.stream i), .fixed (by rw [hsize, IntType.length_stream]), rfl⟩
  match tag with
  | 0 => exact .pure ⟨.fixed .nil [], .fixed rfl, rfl⟩
  | 1 => exact hfixed .boolean (fun x => boolean (x != 0)) rfl
  | 2 => exact hfixed .integer integer rfl
  | 3 => exact hfixed .float (fun x => float ⟨UInt64.ofNat x.toNat⟩) rfl
  | 6 => exact hfixed .datetime (fun t => datetime (ofMilliseconds t)) rfl
  | 4 =>
      refine (acceptsOnly_readSizedString CorruptData.corruptData).map ?_
      rintro s _ ⟨hlt, rfl⟩
      exact ⟨.string s, .string hlt, rfl⟩
  | 5 =>
      refine (acceptsOnly_rawReadInt CorruptData.corruptData .uint64).bind ?_
      rintro i _ ⟨hi, rfl⟩
      obtain ⟨hlt, hcast⟩ := IntType.inRange_toNat rfl hi
      refine (Decoder.AcceptsOnly.take CorruptData.corruptData i.toNat).map ?_
      rintro bv _ ⟨rfl, hlen⟩
      refine ⟨.blob bv, .blob (by rw [hlen]; exact hlt), ?_⟩
      rw [NativeTree.bytes, hlen, hcast]
      rfl
  | 7 =>
      refine (acceptsOnly_rawReadInt CorruptData.corruptData .uint64).bind ?_
      rintro i _ ⟨hi, rfl⟩
      obtain ⟨hlt, hcast⟩ := IntType.inRange_toNat rfl hi
      refine (h.times i.toNat).map ?_
      rintro vs _ ⟨outs, houts, rfl, hlen⟩
      obtain ⟨items, hitems, hcount, hbytes⟩ := exists_trees houts
      rw [hlen] at hcount
      refine ⟨.array items, .array (by rw [hcount]; exact hlt) hitems, ?_⟩
      rw [NativeTree.bytes, hcount, hcast, hbytes]
      rfl
  | 8 =>
      refine (acceptsOnly_rawReadInt CorruptData.corruptData .uint64).bind ?_
      rintro i _ ⟨hi, rfl⟩
      obtain ⟨hlt, hcast⟩ := IntType.inRange_toNat rfl hi
      have hfield : Decoder.AcceptsOnly (do
          let key ← readNested
          let value ← readNested
          return (key, value)) fun _ out =>
            ∃ key value, IsTree key ∧ IsTree value ∧ key ++ value = out :=
        h.bind fun _ key hkey => h.map fun _ value hvalue => ⟨key, value, hkey, hvalue, rfl⟩
      refine (hfield.times i.toNat).map ?_
      rintro vs _ ⟨outs, houts, rfl, hlen⟩
      obtain ⟨fields, hfields, hcount, hbytes⟩ := exists_fieldTrees houts
      rw [hlen] at hcount
      refine ⟨.map fields, .map (by rw [hcount]; exact hlt) (fun f hf => (hfields f hf).1)
        fun f hf => (hfields f hf).2, ?_⟩
      rw [NativeTree.bytes, hcount, hcast, hbytes]
      rfl
  | tag + 9 =>
      refine .pure ⟨.unknown (tag + 9), .unknown (by omega) htag, ?_⟩
      rw [List.append_nil]
      rfl

theorem acceptsOnly_readValue (fuel : ℕ) : (readValue fuel).AcceptsOnly fun _ out => IsTree out := by
  induction fuel with
  | zero => exact .throw
  | succ fuel ih =>
      refine (acceptsOnly_rawReadInt CorruptData.corruptData .uint32).bind ?_
      rintro i _ ⟨hi, rfl⟩
      obtain ⟨hlt, hcast⟩ := IntType.inRange_toNat rfl hi
      have hpayload := acceptsOnly_readPayload ih hlt
      rwa [hcast] at hpayload

/-! ## Every tree is accepted -/

/-- After a tag, the decoder goes on with the payload, with fuel for each byte of it. -/
theorem exists_readsBack_tagged (tag : ℕ) (htag : tag < 2 ^ 32) {payload : Bytes} {fuel : ℕ}
    (hfuel : (IntType.uint32.stream tag ++ payload).length ≤ fuel)
    (h : ∀ f, payload.length ≤ f → ∃ v, (readPayload (readValue f) tag).ReadsBack payload v) :
    ∃ v, (readValue fuel).ReadsBack (IntType.uint32.stream tag ++ payload) v := by
  rw [List.length_append, IntType.length_stream, IntType.width] at hfuel
  obtain ⟨f, rfl⟩ : ∃ f, fuel = f + 1 := ⟨fuel - 1, by omega⟩
  obtain ⟨v, hv⟩ := h f (by omega)
  have hrange : IntType.uint32.InRange tag := (IntType.inRange_unsigned rfl).mpr htag
  exact ⟨v, (readsBack_rawReadInt _ hrange).bind hv⟩

/-- A list of decoded values for a list of trees. -/
theorem exists_readsBack_times {α β : Type} (d : Decoder CorruptData UInt8 α) (enc : β → Bytes)
    (xs : List β) (h : ∀ x ∈ xs, ∃ v, d.ReadsBack (enc x) v) :
    ∃ vs, (Decoder.times d xs.length).ReadsBack (xs.flatMap enc) vs := by
  induction xs with
  | nil => exact ⟨[], .pure []⟩
  | cons x xs ih =>
      obtain ⟨v, hv⟩ := h x (by simp)
      obtain ⟨vs, hvs⟩ := ih fun y hy => h y (by simp [hy])
      exact ⟨v :: vs, hv.bind (hvs.map _)⟩

namespace NativeTree

theorem length_le_itemsBytes {items : List NativeTree} {t : NativeTree} (h : t ∈ items) :
    t.bytes.length ≤ (itemsBytes items).length := by
  rw [itemsBytes_eq_flatMap, List.length_flatMap]
  exact List.single_le_sum (by simp) _ (List.mem_map_of_mem h)

theorem length_le_fieldsBytes {fields : List (NativeTree × NativeTree)}
    {f : NativeTree × NativeTree} (h : f ∈ fields) :
    f.1.bytes.length + f.2.bytes.length ≤ (fieldsBytes fields).length := by
  rw [fieldsBytes_eq_flatMap, List.length_flatMap, ← List.length_append]
  exact List.single_le_sum (by simp) _ (List.mem_map_of_mem (f := fun f => (f.1.bytes ++ f.2.bytes).length) h)

/-- The decoder takes a tree off the front of anything, given fuel for each byte of it. -/
theorem Complete.readsBack {t : NativeTree} (ht : t.Complete) {fuel : ℕ}
    (hfuel : t.bytes.length ≤ fuel) : ∃ v, (readValue fuel).ReadsBack t.bytes v := by
  induction ht generalizing fuel with
  | @fixed type payload hsize =>
      have hread : ∀ {t : IntType} (g : ℤ → Dynamic), some t.width = some payload.length →
          ∃ v, (rawReadInt CorruptData.corruptData t >>= fun i => pure (g i)).ReadsBack payload v :=
        fun g hlen => ⟨_, ((readsBack_rawRead CorruptData.corruptData
          (Option.some.inj hlen).symm).map _).map g⟩
      refine exists_readsBack_tagged type.index (by cases type <;> decide) hfuel ?_
      intro f _
      cases type with
      | nil =>
          obtain rfl : payload = [] := by simpa [fixedSize] using hsize.symm
          exact ⟨_, .pure Dynamic.nil⟩
      | boolean => exact hread (t := .uint8) (fun x => Dynamic.boolean (x != 0)) hsize
      | integer => exact hread (t := .int64) Dynamic.integer hsize
      | float => exact hread (t := .uint64) (fun x => Dynamic.float ⟨UInt64.ofNat x.toNat⟩) hsize
      | datetime => exact hread (t := .int64) (fun t => Dynamic.datetime (ofMilliseconds t)) hsize
      | string => cases hsize
      | blob => cases hsize
      | array => cases hsize
      | map => cases hsize
  | @string s h =>
      have hwrite : writeString .uint32 s = some (writeInt .uint32 s.length ++ s) :=
        if_pos ((IntType.inRange_unsigned rfl).mpr h)
      exact exists_readsBack_tagged 4 (by decide) hfuel fun f _ =>
        ⟨_, (readsBack_readSizedString CorruptData.corruptData hwrite).map Dynamic.string⟩
  | @blob data h =>
      refine exists_readsBack_tagged 5 (by decide) hfuel fun f _ => ?_
      have hdata : (rawRead CorruptData.corruptData (data.length : ℤ).toNat).ReadsBack data data :=
        readsBack_rawRead CorruptData.corruptData (by simp)
      exact ⟨_, (readsBack_rawReadInt _ (inRange_count h)).bind
        (hdata.map fun bv => Dynamic.blob (.ofBytes bv))⟩
  | @array items h _ ih =>
      refine exists_readsBack_tagged 7 (by decide) hfuel fun f hf => ?_
      rw [List.length_append] at hf
      obtain ⟨vs, hvs⟩ := exists_readsBack_times (readValue f) bytes items
        fun t ht => ih t ht (by have := length_le_itemsBytes ht; omega)
      rw [itemsBytes_eq_flatMap]
      exact ⟨_, (readsBack_rawReadInt _ (inRange_count h)).bind (hvs.map Dynamic.array)⟩
  | @map fields h _ _ ihk ihx =>
      refine exists_readsBack_tagged 8 (by decide) hfuel fun f hf => ?_
      rw [List.length_append] at hf
      obtain ⟨vs, hvs⟩ := exists_readsBack_times (do
          let key ← readValue f
          let value ← readValue f
          return (key, value)) (fun f => f.1.bytes ++ f.2.bytes) fields fun g hg => by
        have hle := length_le_fieldsBytes hg
        obtain ⟨k, hk⟩ := @ihk g hg f (by omega)
        obtain ⟨x, hx⟩ := @ihx g hg f (by omega)
        exact ⟨_, hk.bind (hx.map _)⟩
      rw [fieldsBytes_eq_flatMap]
      exact ⟨_, (readsBack_rawReadInt _ (inRange_count h)).bind
        (hvs.map fun fields => Dynamic.map (assignFields fields))⟩
  | @unknown tag h fits =>
      rw [← List.append_nil (NativeTree.unknown tag).bytes] at hfuel ⊢
      refine exists_readsBack_tagged tag fits hfuel fun f _ => ⟨Dynamic.nil, ?_⟩
      obtain ⟨n, rfl⟩ : ∃ n, tag = n + 9 := ⟨tag - 9, by omega⟩
      exact .pure Dynamic.nil

/-! ## A tree can be told from its bytes -/

def tag : NativeTree → ℕ
  | fixed type _ => type.index
  | string _ => 4
  | blob _ => 5
  | array _ => 7
  | map _ => 8
  | unknown tag => tag

/-- What follows the tag. -/
def payload : NativeTree → Bytes
  | fixed _ payload => payload
  | string s => writeInt .uint32 s.length ++ s
  | blob data => IntType.uint64.stream data.length ++ data
  | array items => IntType.uint64.stream items.length ++ itemsBytes items
  | map fields => IntType.uint64.stream fields.length ++ fieldsBytes fields
  | unknown _ => []

theorem bytes_eq (t : NativeTree) : t.bytes = IntType.uint32.stream t.tag ++ t.payload := by
  cases t with
  | unknown tag => rw [payload, List.append_nil]; rfl
  | _ => rfl

theorem index_lt (type : ValueType) : type.index < 9 := by
  cases type <;> decide

theorem Complete.tag_lt {t : NativeTree} (h : t.Complete) : t.tag < 2 ^ 32 := by
  cases h with
  | @fixed type _ _ => exact (index_lt type).trans (by decide)
  | unknown _ fits => exact fits
  | _ => simp [tag]

theorem inRange_tag {t : NativeTree} (h : t.Complete) : IntType.uint32.InRange t.tag :=
  (IntType.inRange_unsigned rfl).mpr h.tag_lt

/-- The constructor of a tree is told by its tag. -/
theorem Complete.cases_tag {t : NativeTree} (ht : t.Complete) :
    (∀ type payload, fixedSize type = some payload → t.tag = type.index →
      ∃ bs : Bytes, t = .fixed type bs ∧ bs.length = payload) ∧
    (t.tag = 4 → ∃ s, t = .string s) ∧ (t.tag = 5 → ∃ data, t = .blob data) ∧
    (t.tag = 7 → ∃ items, t = .array items) ∧ (t.tag = 8 → ∃ fields, t = .map fields) ∧
    (8 < t.tag → t = .unknown t.tag) := by
  cases ht with
  | @fixed type bs hsize =>
      have hlt := index_lt type
      refine ⟨fun type' n hsize' htag => ?_, ?_⟩
      · obtain rfl : type = type' := by cases type <;> cases type' <;> first | rfl | cases htag
        exact ⟨bs, rfl, Option.some.inj (hsize.symm.trans hsize')⟩
      · cases type <;> simp [tag, ValueType.index] <;> cases hsize
  | unknown h _ =>
      refine ⟨fun type _ _ htag => ?_, ?_⟩
      · have hlt := index_lt type
        rw [← htag] at hlt
        simp only [tag] at hlt
        omega
      · simp only [tag]
        exact ⟨by omega, by omega, by omega, by omega, fun _ => trivial⟩
  | _ =>
      refine ⟨fun type _ hsize htag => ?_, by simp [tag]⟩
      cases type <;> simp [tag, ValueType.index, fixedSize] at htag hsize

theorem selfDelimiting_stream {t : IntType} :
    PrefixCode.SelfDelimiting t.stream t.InRange Eq :=
  PrefixCode.Separates.selfDelimiting (fun _ _ hi hj h => intStream_inj hi hj h)
    fun i _ => t.length_stream i

theorem selfDelimiting_count :
    PrefixCode.SelfDelimiting (fun n : ℕ => IntType.uint64.stream n) (· < 2 ^ 64) Eq := by
  intro n m hn hm r r' he
  obtain ⟨hnm, hr⟩ := selfDelimiting_stream (inRange_count hn) (inRange_count hm) he
  exact ⟨Int.ofNat_inj.mp hnm, hr⟩

theorem selfDelimiting_length :
    PrefixCode.SelfDelimiting (fun n : ℕ => writeInt .uint32 n) (· < 2 ^ 32) Eq := by
  refine PrefixCode.Separates.selfDelimiting (n := 4) ?_ fun n _ => length_writeInt .uint32 n
  intro n m hn hm he
  have hrange : ∀ {k : ℕ}, k < 2 ^ 32 → IntType.uint32.InRange k :=
    fun hk => (IntType.inRange_unsigned rfl).mpr hk
  exact Int.ofNat_inj.mp (intStream_inj (hrange hn) (hrange hm) (List.reverse_inj.mp he))

/-- A length with as many bytes as it says. -/
theorem sized_inj {enc : ℕ → Bytes} {limit : ℕ}
    (henc : PrefixCode.SelfDelimiting enc (· < limit) Eq) {s s' r r' : Bytes}
    (hs : s.length < limit) (hs' : s'.length < limit)
    (he : (enc s.length ++ s) ++ r = (enc s'.length ++ s') ++ r') : s = s' ∧ r = r' := by
  rw [List.append_assoc, List.append_assoc] at he
  obtain ⟨hlen, he⟩ := henc hs hs' he
  exact List.append_inj he hlen

section
variable {P : NativeTree → Prop} (hP : PrefixCode.SelfDelimiting bytes P Eq)

include hP

theorem items_inj {items items' : List NativeTree} {r r' : Bytes} (hlen : items.length < 2 ^ 64)
    (hlen' : items'.length < 2 ^ 64) (hitems : ∀ t ∈ items, P t) (hitems' : ∀ t ∈ items', P t)
    (he : (array items).payload ++ r = (array items').payload ++ r') : items = items' ∧ r = r' := by
  simp only [payload, itemsBytes_eq_flatMap] at he
  obtain ⟨heq, hr⟩ := hP.counted selfDelimiting_count ⟨hlen, hitems⟩ ⟨hlen', hitems'⟩ he
  rw [List.forall₂_eq_eq_eq] at heq
  exact ⟨heq, hr⟩

theorem fields_inj {fields fields' : List (NativeTree × NativeTree)} {r r' : Bytes}
    (hlen : fields.length < 2 ^ 64) (hlen' : fields'.length < 2 ^ 64)
    (hfields : ∀ f ∈ fields, P f.1 ∧ P f.2) (hfields' : ∀ f ∈ fields', P f.1 ∧ P f.2)
    (he : (map fields).payload ++ r = (map fields').payload ++ r') : fields = fields' ∧ r = r' := by
  have hpair : PrefixCode.SelfDelimiting (fun f : NativeTree × NativeTree => f.1.bytes ++ f.2.bytes)
      (fun f => P f.1 ∧ P f.2) Eq := by
    intro f f' hf hf' r r' he
    rw [List.append_assoc, List.append_assoc] at he
    obtain ⟨hkey, he⟩ := hP hf.1 hf'.1 he
    obtain ⟨hvalue, hr⟩ := hP hf.2 hf'.2 he
    exact ⟨Prod.ext hkey hvalue, hr⟩
  simp only [payload, fieldsBytes_eq_flatMap] at he
  obtain ⟨heq, hr⟩ := hpair.counted selfDelimiting_count ⟨hlen, hfields⟩ ⟨hlen', hfields'⟩ he
  rw [List.forall₂_eq_eq_eq] at heq
  exact ⟨heq, hr⟩

end

theorem length_payload (t : NativeTree) : t.bytes.length = 4 + t.payload.length := by
  rw [bytes_eq, List.length_append, IntType.length_stream, IntType.width]

theorem length_item_lt {items : List NativeTree} {t : NativeTree} {n : ℕ} (ht : t ∈ items)
    (hn : (array items).bytes.length < n + 1) : t.bytes.length < n := by
  have := length_le_itemsBytes ht
  rw [length_payload, payload, List.length_append] at hn
  omega

theorem length_field_lt {fields : List (NativeTree × NativeTree)} {f : NativeTree × NativeTree}
    {n : ℕ} (hf : f ∈ fields) (hn : (map fields).bytes.length < n + 1) :
    f.1.bytes.length < n ∧ f.2.bytes.length < n := by
  have := length_le_fieldsBytes hf
  rw [length_payload, payload, List.length_append] at hn
  omega

/-- No tree is the start of another, and no two trees have the same bytes.  The induction is on
the number of bytes, of which the items of an array have fewer. -/
theorem selfDelimiting_bytes (n : ℕ) :
    PrefixCode.SelfDelimiting bytes (fun t => t.Complete ∧ t.bytes.length < n) Eq := by
  induction n with
  | zero => exact fun t _ h => absurd h.2 (Nat.not_lt_zero _)
  | succ n ih =>
      rintro t t' ⟨ht, hn⟩ ⟨ht', hn'⟩ r r' he
      rw [bytes_eq, bytes_eq, List.append_assoc, List.append_assoc] at he
      obtain ⟨htag, he⟩ := selfDelimiting_stream (inRange_tag ht) (inRange_tag ht') he
      have htag : t'.tag = t.tag := Int.ofNat_inj.mp htag.symm
      obtain ⟨hfixed, hstring, hblob, harray, hmap, hunknown⟩ := ht'.cases_tag
      cases ht with
      | fixed hsize =>
          obtain ⟨bs, rfl, hlen⟩ := hfixed _ _ hsize htag
          obtain ⟨rfl, rfl⟩ := List.append_inj he hlen.symm
          exact ⟨rfl, rfl⟩
      | string h =>
          obtain ⟨s', rfl⟩ := hstring htag
          cases ht' with
          | string h' =>
              obtain ⟨rfl, rfl⟩ := sized_inj selfDelimiting_length h h' he
              exact ⟨rfl, rfl⟩
      | blob h =>
          obtain ⟨data', rfl⟩ := hblob htag
          cases ht' with
          | blob h' =>
              obtain ⟨rfl, rfl⟩ := sized_inj selfDelimiting_count h h' he
              exact ⟨rfl, rfl⟩
      | array h hitems =>
          obtain ⟨items', rfl⟩ := harray htag
          cases ht' with
          | array h' hitems' =>
              obtain ⟨rfl, rfl⟩ := items_inj ih h h'
                (fun t ht => ⟨hitems t ht, length_item_lt ht hn⟩)
                (fun t ht => ⟨hitems' t ht, length_item_lt ht hn'⟩) he
              exact ⟨rfl, rfl⟩
      | map h hkeys hvalues =>
          obtain ⟨fields', rfl⟩ := hmap htag
          cases ht' with
          | map h' hkeys' hvalues' =>
              obtain ⟨rfl, rfl⟩ := fields_inj ih h h'
                (fun f hf => ⟨⟨hkeys f hf, (length_field_lt hf hn).1⟩,
                  hvalues f hf, (length_field_lt hf hn).2⟩)
                (fun f hf => ⟨⟨hkeys' f hf, (length_field_lt hf hn').1⟩,
                  hvalues' f hf, (length_field_lt hf hn').2⟩) he
              exact ⟨rfl, rfl⟩
      | unknown h fits =>
          have ht' := hunknown (by rw [htag]; exact h)
          rw [htag] at ht'
          rw [ht'] at he
          exact ⟨ht'.symm, he⟩

theorem Complete.bytes_inj {t t' : NativeTree} (ht : t.Complete) (ht' : t'.Complete)
    (he : t.bytes = t'.bytes) : t = t' := by
  have hlen : t'.bytes.length < t.bytes.length + 1 := by rw [he]; exact Nat.lt_succ_self _
  have happend : t.bytes ++ [] = t'.bytes ++ [] := by rw [he]
  exact (selfDelimiting_bytes _ ⟨ht, Nat.lt_succ_self _⟩ ⟨ht', hlen⟩ happend).1

end NativeTree

/-! ## Termination -/

/-- More fuel than there are bytes changes nothing. -/
theorem readValue_succ {fuel : ℕ} : Decoder.AgreeUpTo fuel (readValue fuel) (readValue (fuel + 1)) := by
  induction fuel with
  | zero =>
      intro bs hbs
      obtain rfl := List.length_eq_zero_iff.mp (Nat.le_zero.mp hbs)
      rfl
  | succ fuel ih =>
      intro bs hbs
      have hpayload : ∀ tag, Decoder.AgreeUpTo fuel (readPayload (readValue fuel) tag)
          (readPayload (readValue (fuel + 1)) tag) := by
        have hleft := acceptsOnly_readValue fuel
        have hcount := acceptsOnly_rawReadInt CorruptData.corruptData .uint64
        intro tag
        match tag with
        | 7 =>
            exact .bind (.refl _) hcount fun i =>
              .bind (ih.times hleft _) (hleft.times _) fun _ => .refl _
        | 8 =>
            have hfield : Decoder.AcceptsOnly (do
                let key ← readValue fuel
                let value ← readValue fuel
                return (key, value)) fun _ _ => True :=
              hleft.bind fun _ _ _ => hleft.map fun _ _ _ => trivial
            refine .bind (.refl _) hcount fun i => ?_
            refine .bind (.times ?_ hfield _) (hfield.times _) fun _ => .refl _
            exact ih.bind hleft fun _ => ih.bind hleft fun _ => .refl _
        | 0 | 1 | 2 | 3 | 4 | 5 | 6 | tag + 9 => exact .refl _
      -- the nested reads see at least the bytes of the tag less
      have htag := acceptsOnly_rawReadInt CorruptData.corruptData .uint32
      rw [readValue, readValue, StateT.run_bind, StateT.run_bind]
      cases hrun : (rawReadInt CorruptData.corruptData .uint32).run bs with
      | error e => rfl
      | ok r =>
          obtain ⟨out, rfl, -, hout⟩ := @htag bs r.1 r.2 hrun
          have hlen := congrArg List.length hout
          rw [IntType.length_stream, IntType.width] at hlen
          rw [List.length_append] at hbs
          exact hpayload r.1.toNat r.2 (by omega)

/-- The decoder terminates: with one call more than there are bytes, or any number of further
calls, it comes to the same result. -/
theorem readValue_eq {fuel : ℕ} {bs : Bytes} (h : bs.length ≤ fuel) :
    (readValue fuel).run bs = readNativelyEncodedValue.run bs := by
  induction fuel, h using Nat.le_induction with
  | base => rfl
  | succ fuel h ih => rw [← readValue_succ bs h, ih]

/-! ## Malformed input -/

/-- The decoder throws on the bytes, or what it consumed is of the grammar. -/
def RejectsMalformed (bs : Bytes) : Prop :=
  ∀ v rest, readNativelyEncodedValue.run bs = .ok (v, rest) →
    ∃ consumed, bs = consumed ++ rest ∧ InGrammar consumed

theorem rejectsMalformed_iff_known (bs : Bytes) :
    RejectsMalformed bs ↔ ∀ t : NativeTree, t.Complete → t.bytes <+: bs → t.Known := by
  refine ⟨fun h t ht hprefix => ?_, fun h v rest hrun => ?_⟩
  · obtain ⟨rest, rfl⟩ := hprefix
    have hfuel : t.bytes.length ≤ (t.bytes ++ rest).length := by simp
    obtain ⟨v, hread⟩ := ht.readsBack hfuel
    obtain ⟨consumed, hbs, t', ht', hknown, rfl⟩ := h v rest (hread rest)
    obtain rfl := ht.bytes_inj ht' (List.append_cancel_right hbs)
    exact hknown
  · obtain ⟨out, rfl, t, ht, rfl⟩ := acceptsOnly_readValue _ hrun
    exact ⟨t.bytes, rfl, t, ht, h t ht (List.prefix_append _ _), rfl⟩

/-- **What the decoder accepts.**  It throws or consumes a value of the grammar exactly if the
bytes do not start with a complete tree in which some tag is unknown.  It terminates on every
input, within as many nested calls as there are bytes. -/
theorem rejects_malformed_iff (bs : Bytes) :
    (RejectsMalformed bs ↔ ∀ t : NativeTree, t.Complete → t.bytes <+: bs → t.Known) ∧
      ∀ fuel, bs.length ≤ fuel → (readValue fuel).run bs = readNativelyEncodedValue.run bs :=
  ⟨rejectsMalformed_iff_known bs, fun _ => readValue_eq⟩

/-- An array of one item, whose tag is 9, is taken for an array of one nil. -/
theorem not_rejectsMalformed_unknownItem :
    ¬ RejectsMalformed [7, 0, 0, 0, 1, 0, 0, 0, 0, 0, 0, 0, 9, 0, 0, 0] := by
  intro h
  have hbytes : (NativeTree.array [.unknown 9]).bytes
      = [7, 0, 0, 0, 1, 0, 0, 0, 0, 0, 0, 0, 9, 0, 0, 0] := by decide
  have hcomplete : (NativeTree.array [.unknown 9]).Complete := by
    refine .array (by decide) fun t ht => ?_
    rw [List.mem_singleton] at ht
    rw [ht]
    exact .unknown (by decide) (by decide)
  have hknown := (rejectsMalformed_iff_known _).mp h _ hcomplete (by rw [hbytes])
  cases hknown with
  | array hitems => cases hitems (.unknown 9) (by simp)

end Dynamic
end Cradle
