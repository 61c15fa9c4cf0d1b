import Cradle.Encodings.Base64
import Cradle.Typing.Diff
import Cradle.Typing.RawMemory
import Cradle.Typing.WellFormed

/-!
# Dynamic values as JSON documents

JSON has no blobs, no datetimes and no maps with other keys than strings.  A blob is an
object with a marker in its `type`, a datetime is a string in a fixed format, and a map
with other keys is an array of objects with a `key` and a `value`.  The reader recognizes
each by its shape.

The printing of a date and time up to the minute and the parsing of a datetime are those
of Boost, and a parameter here.
-/

namespace Cradle

/-- A JSON document. -/
inductive Json
  | null
  | boolean (b : Bool)
  | integer (i : ℤ)
  | float (x : Double)
  | string (s : Bytes)
  | array (items : List Json)
  | object (members : List (Bytes × Json))

/-- The exceptions of the reader. -/
inductive JsonError
  | badNumericCast
  | parsingError (expectedFormat parsingError : String)
  | incorrectType
  deriving DecidableEq, Repr

/-- The names of the members that the encoding uses, and the marker of a blob. -/
def keyName : Bytes := ascii ['k', 'e', 'y']
def valueName : Bytes := ascii ['v', 'a', 'l', 'u', 'e']
def typeName : Bytes := ascii ['t', 'y', 'p', 'e']
def blobName : Bytes := ascii ['b', 'l', 'o', 'b']
def blobMarker : Bytes :=
  ascii ['b', 'a', 's', 'e', '6', '4', '-', 'e', 'n', 'c', 'o', 'd', 'e', 'd',
    '-', 'b', 'l', 'o', 'b']

namespace Json

/-- Assignment to `json[key]`: the members are kept in the order of their keys. -/
def setMember (key : Bytes) (value : Json) : List (Bytes × Json) → List (Bytes × Json)
  | [] => [(key, value)]
  | (k, x) :: members =>
      if k < key then (k, x) :: setMember key value members
      else if key < k then (key, value) :: (k, x) :: members
      else (k, value) :: members

/-- The object after the assignments of the given members in turn. -/
def assignMembers (members : List (Bytes × Json)) : List (Bytes × Json) :=
  members.foldl (fun ms m => setMember m.1 m.2 ms) []

/-- `at_key`. -/
def atKey {α : Type} (members : List (Bytes × α)) (key : Bytes) : Option α :=
  (members.find? fun m => m.1 == key).map Prod.snd

/-- An object with exactly two members, `key` and `value`. -/
def resemblesPair : Json → Bool
  | object members =>
      members.length == 2 && (atKey members keyName).isSome && (atKey members valueName).isSome
  | _ => false

/-- `array_resembles_map`. -/
def arrayResemblesMap (array : List Json) : Bool := !array.isEmpty && array.all resemblesPair

end Json

/-! ## Datetimes -/

/-- Boost's printing of a time with the format `%Y-%m-%dT%H:%M`, and `parse_ptime`. -/
structure PtimeFormat where
  facet : ℤ → Bytes
  parse : Bytes → Option ℤ

/-- `isdigit`. -/
def isDigit (c : UInt8) : Bool := 48 ≤ c && c ≤ 57

/-- The last decimal digits of a number, as many as asked for. -/
def decimals : ℕ → ℕ → Bytes
  | 0, _ => []
  | w + 1, n => decimals w (n / 10) ++ [UInt8.ofNat (48 + n % 10)]

/-- The strings that look like a time: more than 16 characters, of which the first four are
digits and the fifth is a hyphen. -/
def looksLikeTime : Bytes → Bool
  | c0 :: c1 :: c2 :: c3 :: c4 :: rest =>
      11 < rest.length && isDigit c0 && isDigit c1 && isDigit c2 && isDigit c3 && c4 == 45
  | _ => false

namespace PtimeFormat

variable (ptime : PtimeFormat)

/-- `to_value_string`: the seconds and the milliseconds are added to what Boost prints. -/
def toValueString (t : ℤ) : Bytes :=
  ptime.facet t ++ (58 :: decimals 2 (t / 1000000 % 60).toNat
    ++ (46 :: decimals 3 (t / 1000 % 1000).toNat ++ [90]))

/-- Boost prints the date and time up to the minute in sixteen characters, a year of four
digits and a hyphen first, and the string for the time is parsed as that time. -/
def ExactAt (t : ℤ) : Prop :=
  (∃ c0 c1 c2 c3 rest, ptime.facet t = c0 :: c1 :: c2 :: c3 :: 45 :: rest ∧ rest.length = 11 ∧
    isDigit c0 = true ∧ isDigit c1 = true ∧ isDigit c2 = true ∧ isDigit c3 = true) ∧
  ptime.parse (ptime.toValueString t) = some t

/-- The datetime that a string is taken for, if it is. -/
def recognize (s : Bytes) : Option ℤ :=
  if looksLikeTime s then (ptime.parse s).filter fun t => ptime.toValueString t == s else none

end PtimeFormat

namespace Dynamic

/-! ## Writing -/

/-- `has_only_string_keys`. -/
def hasOnlyStringKeys (fields : List (Dynamic × Dynamic)) : Bool :=
  fields.all fun f => f.1.type == .string

/-- The string of a key; only called for strings. -/
def stringKey : Dynamic → Bytes
  | string s => s
  | _ => []

section Codec
variable (ptime : PtimeFormat)

mutual
/-- `to_nlohmann_json`. -/
def toNlohmannJson : Dynamic → Json
  | nil => .null
  | boolean b => .boolean b
  | integer i => .integer i
  | float x => .float x
  | string s => .string s
  | blob b =>
      .object (Json.assignMembers [(typeName, .string blobMarker),
        (blobName, .string (base64Encode .mime b.data))])
  | datetime t => .string (ptime.toValueString t)
  | array items => .array (itemsToJson items)
  | map fields =>
      if hasOnlyStringKeys fields then .object (Json.assignMembers (membersToJson fields))
      else .array (pairsToJson fields)
def itemsToJson : List Dynamic → List Json
  | [] => []
  | x :: xs => x.toNlohmannJson :: itemsToJson xs
def membersToJson : List (Dynamic × Dynamic) → List (Bytes × Json)
  | [] => []
  | (k, x) :: fs => (k.stringKey, x.toNlohmannJson) :: membersToJson fs
def pairsToJson : List (Dynamic × Dynamic) → List Json
  | [] => []
  | (k, x) :: fs =>
      .object (Json.assignMembers [(keyName, k.toNlohmannJson), (valueName, x.toNlohmannJson)])
        :: pairsToJson fs
end

/-! ## Reading -/

/-- The blob in an object with the marker. -/
def readJsonBlob (members : List (Bytes × Json)) : Except JsonError Dynamic :=
  match Json.atKey members blobName with
  | some (.string encoded) =>
      match base64Decode .mime encoded with
      | some decoded => .ok (blob (.ofBytes decoded))
      | none => .error (.parsingError "base64" "")
  | _ =>
      .error (.parsingError "base64-encoded-blob" "object tagged as blob but missing data")

mutual
/-- `read_json_value`. -/
def readJsonValue : Json → Except JsonError Dynamic
  | .null => .ok nil
  | .boolean b => .ok (boolean b)
  | .integer i => if IntType.int64.InRange i then .ok (integer i) else .error .badNumericCast
  | .float x => .ok (float x)
  | .string s =>
      match ptime.recognize s with
      | some t => .ok (datetime t)
      | none => .ok (string s)
  | .array source =>
      if Json.arrayResemblesMap source then
        (readJsonPairs source).map fun fields => map (assignFields fields)
      else (readJsonItems source).map array
  | .object members =>
      let fields := (readJsonMembers members).map fun ms =>
        map (assignFields (ms.map fun m => (string m.1, m.2)))
      match Json.atKey members typeName with
      | some (.string s) => if s = blobMarker then readJsonBlob members else fields
      | _ => fields
def readJsonItems : List Json → Except JsonError (List Dynamic)
  | [] => .ok []
  | x :: xs => (readJsonValue x).bind fun v => (readJsonItems xs).map (v :: ·)
def readJsonMembers : List (Bytes × Json) → Except JsonError (List (Bytes × Dynamic))
  | [] => .ok []
  | (k, x) :: ms => (readJsonValue x).bind fun v => (readJsonMembers ms).map ((k, v) :: ·)
/-- The keys and values of an array that resembles a map. -/
def readJsonPairs : List Json → Except JsonError (List (Dynamic × Dynamic))
  | [] => .ok []
  | .object members :: xs =>
      (readJsonMembers members).bind fun ms =>
        match Json.atKey ms keyName, Json.atKey ms valueName with
        | some key, some value => (readJsonPairs xs).map ((key, value) :: ·)
        | _, _ => .error .incorrectType
  | _ :: _ => .error .incorrectType
end

/-- A map with exactly the keys `key` and `value`. -/
def IsPair (v : Dynamic) : Prop :=
  ∃ x y, v = map [(string keyName, x), (string valueName, y)]

/-- The values that are meant to survive: their strings are not taken for datetimes, and none
of their maps and arrays looks like the encoding of something else. -/
def jsonLimits : Limits where
  float x := x.magnitude < 0x7FF0000000000000
  string s := ptime.recognize s = none
  datetime t := ptime.ExactAt t
  array items := ¬ (items ≠ [] ∧ ∀ x ∈ items, x.IsPair)
  map fields := hasOnlyStringKeys fields = true → (string typeName, string blobMarker) ∉ fields

end Codec
end Dynamic

/-! ## Objects -/

namespace Json

/-- A key above all others goes to the end. -/
theorem setMember_append {key : Bytes} {value : Json} {members : List (Bytes × Json)}
    (h : ∀ m ∈ members, m.1 < key) : setMember key value members = members ++ [(key, value)] := by
  induction members with
  | nil => rfl
  | cons m ms ih =>
      rw [setMember, if_pos (h m (by simp)), ih fun n hn => h n (by simp [hn])]
      rfl

theorem assignMembers_sorted {members : List (Bytes × Json)}
    (h : members.Pairwise fun m n => m.1 < n.1) : assignMembers members = members := by
  rw [assignMembers]
  induction members using List.reverseRecOn with
  | nil => rfl
  | append_singleton ms m ih =>
      rw [List.pairwise_append] at h
      rw [List.foldl_append, ih h.1, List.foldl_cons, List.foldl_nil]
      exact setMember_append fun n hn => h.2.2 n hn m (by simp)

theorem atKey_eq_some {α : Type} {members : List (Bytes × α)} {key : Bytes} {x : α}
    (h : atKey members key = some x) : (key, x) ∈ members := by
  rw [atKey, Option.map_eq_some_iff] at h
  obtain ⟨⟨k, y⟩, hfind, rfl⟩ := h
  have hk : k = key := by simpa using List.find?_some hfind
  rw [← hk]
  exact List.mem_of_find?_eq_some hfind

theorem atKey_isSome {α : Type} {members : List (Bytes × α)} {key : Bytes} :
    (atKey members key).isSome = true ↔ ∃ m ∈ members, m.1 = key := by
  simp [atKey]

/-- Two members in the order of their keys, among which are `key` and `value`. -/
theorem eq_names {k l : Bytes} {x y : Json} (hlt : k < l)
    (hkey : (atKey [(k, x), (l, y)] keyName).isSome = true)
    (hvalue : (atKey [(k, x), (l, y)] valueName).isSome = true) :
    k = keyName ∧ l = valueName := by
  rw [atKey_isSome] at hkey hvalue
  simp only [List.mem_cons, List.not_mem_nil, or_false, exists_eq_or_imp, exists_eq_left]
    at hkey hvalue
  have hne : keyName ≠ valueName := by decide
  obtain rfl | rfl := hkey
  · obtain hv | hv := hvalue
    · exact absurd hv hne
    · exact ⟨rfl, hv⟩
  · obtain rfl | hv := hvalue
    · exact absurd hlt (by decide)
    · exact absurd hv hne

theorem assignMembers_pair (x y : Json) :
    assignMembers [(keyName, x), (valueName, y)] = [(keyName, x), (valueName, y)] := rfl

theorem assignMembers_blob (x y : Json) :
    assignMembers [(typeName, x), (blobName, y)] = [(blobName, y), (typeName, x)] := rfl

end Json

/-! ## Datetimes -/

namespace PtimeFormat

variable {ptime : PtimeFormat} {t : ℤ}

theorem ExactAt.looksLikeTime (h : ptime.ExactAt t) :
    looksLikeTime (ptime.toValueString t) = true := by
  obtain ⟨⟨c0, c1, c2, c3, rest, hfacet, hlen, h0, h1, h2, h3⟩, -⟩ := h
  rw [toValueString, hfacet]
  simp [Cradle.looksLikeTime, hlen, h0, h1, h2, h3]

/-- The string of a datetime is taken for that datetime. -/
theorem ExactAt.recognize (h : ptime.ExactAt t) :
    ptime.recognize (ptime.toValueString t) = some t := by
  rw [PtimeFormat.recognize, if_pos h.looksLikeTime, h.2]
  simp

/-- It is not the marker of a blob. -/
theorem ExactAt.ne_blobMarker (h : ptime.ExactAt t) : ptime.toValueString t ≠ blobMarker := by
  intro he
  have hlooks := h.looksLikeTime
  rw [he] at hlooks
  cases hlooks

end PtimeFormat

namespace Dynamic

section Shapes
variable {ptime : PtimeFormat}

theorem itemsToJson_eq_map (items : List Dynamic) :
    itemsToJson ptime items = items.map (toNlohmannJson ptime) := by
  induction items with
  | nil => rfl
  | cons x xs ih => rw [itemsToJson, ih, List.map_cons]

theorem membersToJson_eq_map (fields : List (Dynamic × Dynamic)) :
    membersToJson ptime fields
      = fields.map fun f => (f.1.stringKey, f.2.toNlohmannJson ptime) := by
  induction fields with
  | nil => rfl
  | cons f fs ih => rw [membersToJson, ih, List.map_cons]

theorem hasOnlyStringKeys_iff {fields : List (Dynamic × Dynamic)} :
    hasOnlyStringKeys fields = true ↔ ∀ f ∈ fields, f.1 = string f.1.stringKey := by
  rw [hasOnlyStringKeys, List.all_eq_true]
  refine forall_congr' fun f => forall_congr' fun _ => ?_
  cases f.1 <;> simp [type, stringKey]

/-- The members of the object for a map are in the order of the fields. -/
theorem assignMembers_membersToJson {fields : List (Dynamic × Dynamic)}
    (hkeys : hasOnlyStringKeys fields = true)
    (sorted : fields.Pairwise fun f g => f.1.lt g.1 = true) :
    Json.assignMembers (membersToJson ptime fields) = membersToJson ptime fields := by
  apply Json.assignMembers_sorted
  rw [membersToJson_eq_map, List.pairwise_map]
  refine sorted.imp_of_mem fun {f g} hf hg hlt => ?_
  rw [hasOnlyStringKeys_iff] at hkeys
  rw [hkeys f hf, hkeys g hg, lt_string] at hlt
  simpa using hlt

/-- Only a string and a datetime are written as a string. -/
theorem eq_of_toNlohmannJson_eq_string {v : Dynamic} {s : Bytes}
    (h : v.toNlohmannJson ptime = .string s) :
    v = string s ∨ ∃ t, v = datetime t ∧ ptime.toValueString t = s := by
  cases v with
  | string =>
      cases h
      exact .inl rfl
  | datetime t =>
      cases h
      exact .inr ⟨t, rfl, rfl⟩
  | map fields =>
      rw [toNlohmannJson] at h
      split at h <;> cases h
  | _ => cases h

/-- An object with two members `key` and `value` was written only for such a map. -/
theorem isPair_of_resemblesPair {v : Dynamic} {L : Limits} (hv : v.Within L)
    (h : (v.toNlohmannJson ptime).resemblesPair = true) : v.IsPair := by
  cases hv with
  | map _ sorted _ _ =>
      rename_i fields
      rw [toNlohmannJson] at h
      split at h
      case isFalse => cases h
      case isTrue hkeys =>
        rw [assignMembers_membersToJson hkeys sorted, membersToJson_eq_map] at h
        rw [hasOnlyStringKeys_iff] at hkeys
        simp only [Json.resemblesPair, List.length_map, Bool.and_eq_true, beq_iff_eq] at h
        obtain ⟨⟨hlen, hkey⟩, hvalue⟩ := h
        obtain ⟨⟨k, x⟩, ⟨l, y⟩, rfl⟩ := List.length_eq_two.mp hlen
        have hk : k = string k.stringKey := hkeys (k, x) (by simp)
        have hl : l = string l.stringKey := hkeys (l, y) (by simp)
        have hlt : k.lt l = true := by simpa using sorted
        rw [hk, hl, lt_string, decide_eq_true_eq] at hlt
        obtain ⟨hkn, hln⟩ := Json.eq_names hlt hkey hvalue
        exact ⟨x, y, by rw [hk, hl, hkn, hln]⟩
  | _ => cases h

end Shapes

/-! ## Reading what was written -/

section RoundTrip
variable {ptime : PtimeFormat}

theorem readJsonItems_itemsToJson {items : List Dynamic}
    (h : ∀ x ∈ items, readJsonValue ptime (x.toNlohmannJson ptime) = .ok x.inMemory) :
    readJsonItems ptime (itemsToJson ptime items) = .ok (items.map inMemory) := by
  induction items with
  | nil => rfl
  | cons x xs ih =>
      rw [itemsToJson, readJsonItems, h x (by simp), ih fun y hy => h y (by simp [hy])]
      rfl

theorem readJsonMembers_membersToJson {fields : List (Dynamic × Dynamic)}
    (h : ∀ f ∈ fields, readJsonValue ptime (f.2.toNlohmannJson ptime) = .ok f.2.inMemory) :
    readJsonMembers ptime (membersToJson ptime fields)
      = .ok (fields.map fun f => (f.1.stringKey, f.2.inMemory)) := by
  induction fields with
  | nil => rfl
  | cons f fs ih =>
      rw [membersToJson, readJsonMembers, h f (by simp), ih fun g hg => h g (by simp [hg])]
      rfl

theorem readJsonPairs_pairsToJson {fields : List (Dynamic × Dynamic)}
    (h : ∀ f ∈ fields, readJsonValue ptime (f.1.toNlohmannJson ptime) = .ok f.1.inMemory ∧
      readJsonValue ptime (f.2.toNlohmannJson ptime) = .ok f.2.inMemory) :
    readJsonPairs ptime (pairsToJson ptime fields)
      = .ok (fields.map fun f => (f.1.inMemory, f.2.inMemory)) := by
  induction fields with
  | nil => rfl
  | cons f fs ih =>
      rw [pairsToJson, Json.assignMembers_pair, readJsonPairs, readJsonMembers, readJsonMembers,
        readJsonMembers, (h f (by simp)).1, (h f (by simp)).2, ih fun g hg => h g (by simp [hg])]
      rfl

theorem arrayResemblesMap_pairsToJson {fields : List (Dynamic × Dynamic)} (h : fields ≠ []) :
    Json.arrayResemblesMap (pairsToJson ptime fields) = true := by
  have hall : (pairsToJson ptime fields).all Json.resemblesPair = true := by
    clear h
    induction fields with
    | nil => rfl
    | cons f fs ih =>
        rw [pairsToJson, List.all_cons, ih]
        rfl
  cases fields with
  | nil => exact absurd rfl h
  | cons f fs =>
      rw [Json.arrayResemblesMap, hall]
      rfl

/-- An array within the limits is not taken for a map. -/
theorem arrayResemblesMap_itemsToJson {items : List Dynamic} {L : Limits}
    (hitems : ∀ x ∈ items, x.Within L) (hpairs : ¬ (items ≠ [] ∧ ∀ x ∈ items, x.IsPair)) :
    Json.arrayResemblesMap (itemsToJson ptime items) = false := by
  rw [Bool.eq_false_iff]
  intro h
  rw [Json.arrayResemblesMap, itemsToJson_eq_map, Bool.and_eq_true, List.all_eq_true] at h
  obtain ⟨hne, hall⟩ := h
  refine hpairs ⟨fun he => ?_, fun x hx => ?_⟩
  · subst he
    cases hne
  · exact isPair_of_resemblesPair (hitems x hx) (hall _ (List.mem_map_of_mem hx))

/-- The type of the object for a map is not the marker of a blob. -/
theorem atKey_type_ne {fields : List (Dynamic × Dynamic)}
    (hkeys : hasOnlyStringKeys fields = true)
    (hmarker : (string typeName, string blobMarker) ∉ fields)
    (hvalues : ∀ f ∈ fields, f.2.Within (jsonLimits ptime)) :
    Json.atKey (membersToJson ptime fields) typeName ≠ some (.string blobMarker) := by
  intro h
  have hmem := Json.atKey_eq_some h
  rw [membersToJson_eq_map, List.mem_map] at hmem
  obtain ⟨f, hf, he⟩ := hmem
  simp only [Prod.mk.injEq] at he
  obtain ⟨hkey, hvalue⟩ := he
  obtain hs | ⟨t, ht, hmarker'⟩ := eq_of_toNlohmannJson_eq_string hvalue
  · refine hmarker ?_
    have hk := hasOnlyStringKeys_iff.mp hkeys f hf
    rw [hkey] at hk
    rw [← hk, ← hs]
    exact hf
  · have hwithin := hvalues f hf
    rw [ht] at hwithin
    cases hwithin with
    | datetime _ limit => exact limit.ne_blobMarker hmarker'

/-- An object without the marker is read as a map. -/
theorem readJsonValue_object {members : List (Bytes × Json)} {ms : List (Bytes × Dynamic)}
    (htype : Json.atKey members typeName ≠ some (.string blobMarker))
    (hread : readJsonMembers ptime members = .ok ms) :
    readJsonValue ptime (.object members)
      = .ok (map (assignFields (ms.map fun m => (string m.1, m.2)))) := by
  rw [readJsonValue, hread]
  split
  case h_1 s hs =>
    have hne : s ≠ blobMarker := by
      intro he
      subst he
      exact htype hs
    rw [if_neg hne]
    rfl
  case h_2 => rfl

theorem map_stringKey {fields : List (Dynamic × Dynamic)}
    (hkeys : hasOnlyStringKeys fields = true) :
    (fields.map fun f => (f.1.stringKey, f.2.inMemory)).map (fun m => (string m.1, m.2))
      = fields.map fun f => (f.1.inMemory, f.2.inMemory) := by
  rw [List.map_map]
  refine List.map_congr_left fun f hf => ?_
  have hk := hasOnlyStringKeys_iff.mp hkeys f hf
  show (string f.1.stringKey, f.2.inMemory) = (f.1.inMemory, f.2.inMemory)
  rw [← hk]
  generalize f.1 = k at hk
  rw [hk]
  rfl

/-- A value within the limits is read back from its document. -/
theorem Within.readJsonValue_toNlohmannJson {v : Dynamic} (h : v.Within (jsonLimits ptime)) :
    readJsonValue ptime (v.toNlohmannJson ptime) = .ok v.inMemory := by
  induction h with
  | integer range => exact if_pos range
  | @string s limit =>
      have hs : ptime.recognize s = none := limit
      simp only [toNlohmannJson, readJsonValue, hs, inMemory]
  | @blob b limit =>
      rw [toNlohmannJson, Json.assignMembers_blob]
      have hdecode := @base64Decode_base64Encode .mime b.data
      have hblob : readJsonBlob [(blobName, .string (base64Encode .mime b.data)),
          (typeName, .string blobMarker)] = .ok (Dynamic.blob (.ofBytes b.data)) := by
        simp [readJsonBlob, Json.atKey, hdecode]
      exact hblob
  | @datetime t _ limit =>
      have ht : ptime.recognize (ptime.toValueString t) = some t := limit.recognize
      simp only [toNlohmannJson, readJsonValue, ht, inMemory]
  | @array items limit within ih =>
      have hno : Json.arrayResemblesMap (itemsToJson ptime items) = false :=
        arrayResemblesMap_itemsToJson within limit
      rw [toNlohmannJson, readJsonValue, hno, readJsonItems_itemsToJson ih, inMemory_array]
      rfl
  | @map fields limit sorted keys values ihk ihx =>
      by_cases hkeys : hasOnlyStringKeys fields = true
      · rw [toNlohmannJson, if_pos hkeys, assignMembers_membersToJson hkeys sorted]
        have hread := readJsonMembers_membersToJson ihx
        have hfields : (fields.map fun f => (f.1.stringKey, f.2.inMemory)).map
            (fun m => (Dynamic.string m.1, m.2)) =
            fields.map fun f => (f.1.inMemory, f.2.inMemory) :=
          map_stringKey hkeys
        rw [← assignFields_inMemory sorted, ← hfields]
        exact readJsonValue_object (atKey_type_ne hkeys (limit hkeys) values) hread
      · have hne : fields ≠ [] := by
          intro he
          subst he
          exact hkeys rfl
        rw [toNlohmannJson, if_neg hkeys, readJsonValue,
          if_pos (arrayResemblesMap_pairsToJson hne),
          readJsonPairs_pairsToJson fun f hf => ⟨ihk f hf, ihx f hf⟩,
          ← assignFields_inMemory sorted]
        rfl
  | _ => rfl

end RoundTrip

/-- Reading the document of a value within the limits yields the value. -/
theorem json_roundTrip (ptime : PtimeFormat) {v : Dynamic} (h : v.Within (jsonLimits ptime)) :
    readJsonValue ptime (v.toNlohmannJson ptime) = .ok v.inMemory ∧
      v.inMemory.equals v = true := by
  refine ⟨h.readJsonValue_toNlohmannJson, ?_⟩
  rw [inMemory_equals]
  refine h.equals_self fun x (hx : x.magnitude < 0x7FF0000000000000) => ?_
  rw [Double.isNaN, decide_eq_false_iff_not]
  omega

/-- Boost at the start of 1970. -/
def epochFormat : PtimeFormat where
  facet _ := ascii ['1', '9', '7', '0', '-', '0', '1', '-', '0', '1', 'T', '0', '0', ':', '0', '0']
  parse s :=
    if s = ascii ['1', '9', '7', '0', '-', '0', '1', '-', '0', '1', 'T', '0', '0', ':', '0', '0',
      ':', '0', '0', '.', '0', '0', '0', 'Z'] then some 0 else none

theorem json_roundTrip_epoch :
    readJsonValue epochFormat
        ((map [(integer 1, datetime 0), (string typeName, blob (.ofBytes [255]))]).toNlohmannJson
          epochFormat)
      = .ok (map [(integer 1, datetime 0), (string typeName, blob (.ofBytes [255]))]) := by
  have hdatetime : epochFormat.ExactAt 0 :=
    ⟨⟨_, _, _, _, _, rfl, rfl, rfl, rfl, rfl, rfl⟩, rfl⟩
  refine (json_roundTrip epochFormat (.map ?_ (by decide) ?_ ?_)).1
  · intro hkeys
    cases hkeys
  · simp only [List.forall_mem_cons]
    exact ⟨.integer (by decide), .string rfl, by simp⟩
  · simp only [List.forall_mem_cons]
    exact ⟨.datetime (by decide) hdatetime, .blob trivial, by simp⟩

end Dynamic
end Cradle
