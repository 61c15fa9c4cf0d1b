import Cradle.Lib.KeyedTree
import Cradle.Typing.JsonEncoding

/-!
# Configuration maps

A configuration is read from JSON or from TOML.  Either way it is a tree of tables, and the map
has an entry for each leaf: the keys that lead to the leaf, with a slash between any two.  The
parsers are libraries; simdjson keeps the members of an object in the order of the text, and the
tables of toml++ are in the order of their keys.
-/

namespace Cradle.Service

/-- `config_value`. -/
inductive ConfigValue
  | string (s : Bytes)
  | number (n : UInt64)
  | boolean (b : Bool)
  deriving DecidableEq, Repr

/-- `service_config_map`, a `std::map`. -/
@[ext]
structure ServiceConfigMap where
  entries : List (Bytes × ConfigValue) := []
  sorted : Assoc.Sorted entries := by exact List.Pairwise.nil
  deriving DecidableEq

/-- What is thrown. -/
inductive ConfigError
  | jsonConfigError (what : String)
  | tomlConfigError (what : String)
  /-- The `simdjson_error` of a document that is no object. -/
  | incorrectType
  /-- The `invalid_argument` "Invalid key {key}". -/
  | invalidKey (key : Bytes)
  /-- The `type_error` of nlohmann. -/
  | typeError
  | parseError
  deriving DecidableEq, Repr

namespace ServiceConfigMap

/-- `result[key] = value`. -/
def assign (key : Bytes) (value : ConfigValue) (result : ServiceConfigMap) : ServiceConfigMap where
  entries := Assoc.assign key value result.entries
  sorted := result.sorted.assign

end ServiceConfigMap

/-! ## The JSON reader -/

def slash : UInt8 := 47

/-- `parse_json_value`. -/
def parseJsonValue : Json → Except ConfigError ConfigValue
  | .boolean b => .ok (.boolean b)
  -- An INT64 and a UINT64 are both cast to `size_t`: a negative number becomes a large one.
  | .integer i => .ok (.number (.ofInt i))
  | .string s => .ok (.string s)
  | _ => .error (.jsonConfigError "JSON value has unsupported type")

mutual
/-- `parse_json_object`. -/
def parseJsonObject : List (Bytes × Json) → Bytes → ServiceConfigMap →
    Except ConfigError ServiceConfigMap
  | [], _, result => .ok result
  | (k, value) :: rest, keyPrefix, result => do
      let result ← parseJsonMember value (keyPrefix ++ k) result
      parseJsonObject rest keyPrefix result
/-- What `parse_json_object` does with one member. -/
def parseJsonMember : Json → Bytes → ServiceConfigMap → Except ConfigError ServiceConfigMap
  | .object members, key, result => parseJsonObject members (key ++ [slash]) result
  | value, key, result => do return result.assign key (← parseJsonValue value)
end

/-- `parse_json_doc`. -/
def parseJsonDoc : Json → Except ConfigError ServiceConfigMap
  | .object members => parseJsonObject members [] {}
  | _ => .error .incorrectType

/-- `read_config_map_from_json`. -/
def readConfigMapFromJson (parse : Bytes → Except ConfigError Json) (jsonText : Bytes) :
    Except ConfigError ServiceConfigMap := do
  parseJsonDoc (← parse jsonText)

/-! ## The TOML reader -/

/-- The values of toml++ other than tables.  Of what is not supported nothing is read. -/
inductive TomlValue
  | string (s : Bytes)
  | integer (i : Int64)
  | boolean (b : Bool)
  | floatingPoint
  | array
  | dateTime
  deriving DecidableEq, Repr

abbrev TomlNode := KeyedTree Bytes TomlValue

/-- `value<size_t>()` of an integer. -/
def valueSizeT (i : Int64) : Option UInt64 := if i.toInt < 0 then none else some (.ofInt i.toInt)

/-- What `handle_table` has collected: the map, whether there were errors, and the keys in the
errors that it has logged. -/
structure TomlResult where
  result : ServiceConfigMap := {}
  haveErrors : Bool := false
  reported : List Bytes := []

namespace TomlResult
variable (r : TomlResult) (configKey : Bytes)

def assign (value : ConfigValue) : TomlResult := { r with result := r.result.assign configKey value }

/-- `report_error`, and the flag. -/
def reportError : TomlResult := { r with haveErrors := true, reported := r.reported ++ [configKey] }

/-- What `handle_table` does with a value other than a table. -/
def handleValue : TomlValue → TomlResult
  | .string s => r.assign configKey (.string s)
  | .integer i =>
      match valueSizeT i with
      | some n => r.assign configKey (.number n)
      | none => r.reportError configKey
  | .boolean b => r.assign configKey (.boolean b)
  | _ => r.reportError configKey

end TomlResult

mutual
/-- `handle_table`. -/
def handleTable : List (Bytes × TomlNode) → Bytes → TomlResult → TomlResult
  | [], _, r => r
  | (k, node) :: rest, keyPrefix, r => handleTable rest keyPrefix (handleNode node (keyPrefix ++ k) r)
/-- What `handle_table` does with one node. -/
def handleNode : TomlNode → Bytes → TomlResult → TomlResult
  | .table fields, configKey, r => handleTable fields (configKey ++ [slash]) r
  | .leaf value, configKey, r => r.handleValue configKey value
end

/-- `handle_outer_table`. -/
def handleOuterTable (table : List (Bytes × TomlNode)) : Except ConfigError ServiceConfigMap :=
  let r := handleTable table [] {}
  if r.haveErrors then .error (.tomlConfigError "Errors in TOML") else .ok r.result

/-- `read_config_map_from_toml`. -/
def readConfigMapFromToml (parse : Bytes → Except ConfigError (List (Bytes × TomlNode)))
    (tomlText : Bytes) : Except ConfigError ServiceConfigMap := do
  handleOuterTable (← parse tomlText)

/-! ## Reading the leaves of a tree -/

/-- The key of an entry. -/
def configKey (keys : List Bytes) : Bytes := [slash].intercalate keys

theorem configKey_singleton (k : Bytes) : configKey [k] = k := List.intercalate_singleton

theorem configKey_cons {k : Bytes} {keys : List Bytes} (h : keys ≠ []) :
    configKey (k :: keys) = k ++ [slash] ++ configKey keys := by
  rw [configKey, configKey, List.intercalate_cons_of_ne_nil h, List.append_assoc]

section
variable {α : Type*} (read : α → Option ConfigValue)

/-- The entries for the leaves that have a value. -/
def leafEntries (keyPrefix : Bytes) (leaves : List (List Bytes × α)) :
    List (Bytes × ConfigValue) :=
  leaves.filterMap fun x => (read x.2).map fun value => (keyPrefix ++ configKey x.1, value)

/-- All leaves have a value. -/
def allRead (leaves : List (List Bytes × α)) : Bool := leaves.all fun x => (read x.2).isSome

/-- What a reader of configurations is for: it takes the leaves in turn, if all have a value. -/
def readLeaves (error : ConfigError) (leaves : List (List Bytes × α)) :
    Except ConfigError ServiceConfigMap :=
  if allRead read leaves then
    .ok ⟨Assoc.ofEntries (leafEntries read [] leaves), Assoc.sorted_ofEntries _⟩
  else .error error

variable {read} {k keyPrefix : Bytes} {fields rest : List (Bytes × KeyedTree Bytes α)}

theorem keys_ne_nil_of_mem_fieldsLeaves {x : List Bytes × α}
    (h : x ∈ KeyedTree.fieldsLeaves fields) : x.1 ≠ [] := by
  induction fields with
  | nil => cases h
  | cons f fields ih =>
      obtain ⟨k, t⟩ := f
      rw [KeyedTree.fieldsLeaves, List.mem_append, List.mem_map] at h
      rcases h with ⟨y, -, rfl⟩ | h
      · exact List.cons_ne_nil _ _
      · exact ih h

/-- The entries for one field. -/
def fieldEntries (read : α → Option ConfigValue) (key : Bytes) :
    KeyedTree Bytes α → List (Bytes × ConfigValue)
  | .leaf a => ((read a).map fun value => (key, value)).toList
  | .table fields => leafEntries read (key ++ [slash]) (KeyedTree.fieldsLeaves fields)

theorem leafEntries_cons {t : KeyedTree Bytes α} :
    leafEntries read keyPrefix (KeyedTree.fieldsLeaves ((k, t) :: rest)) =
      fieldEntries read (keyPrefix ++ k) t ++
        leafEntries read keyPrefix (KeyedTree.fieldsLeaves rest) := by
  rw [KeyedTree.fieldsLeaves, leafEntries, List.filterMap_append, List.filterMap_map]
  refine congrArg (· ++ _) ?_
  cases t with
  | leaf a =>
      rw [fieldEntries, KeyedTree.leaves_leaf]
      cases h : read a with
      | none => simp [h]
      | some value => simp [h, configKey_singleton]
  | table fields =>
      refine List.filterMap_congr fun x hx => ?_
      simp only [Function.comp_apply, configKey_cons (keys_ne_nil_of_mem_fieldsLeaves hx),
        List.append_assoc]

theorem allRead_cons {t : KeyedTree Bytes α} :
    allRead read (KeyedTree.fieldsLeaves ((k, t) :: rest)) =
      (allRead read t.leaves && allRead read (KeyedTree.fieldsLeaves rest)) := by
  rw [KeyedTree.fieldsLeaves, allRead, List.all_append, List.all_map]
  rfl

end

/-- Assign the entries one after the other. -/
def ServiceConfigMap.assignAll (result : ServiceConfigMap) (entries : List (Bytes × ConfigValue)) :
    ServiceConfigMap :=
  entries.foldl (fun m e => m.assign e.1 e.2) result

theorem ServiceConfigMap.assignAll_append (result : ServiceConfigMap)
    (entries entries' : List (Bytes × ConfigValue)) :
    result.assignAll (entries ++ entries') = (result.assignAll entries).assignAll entries' :=
  List.foldl_append

theorem ServiceConfigMap.assignAll_empty (entries : List (Bytes × ConfigValue)) :
    assignAll {} entries = ⟨Assoc.ofEntries entries, Assoc.sorted_ofEntries _⟩ := by
  have hfold (m : ServiceConfigMap) : (m.assignAll entries).entries =
      entries.foldl (fun m e => Assoc.assign e.1 e.2 m) m.entries := by
    induction entries generalizing m with
    | nil => rfl
    | cons e entries ih => exact ih _
  exact ServiceConfigMap.ext (hfold {})

/-! ### JSON -/

mutual
/-- A document with its objects as tables. -/
def jsonTree : Json → KeyedTree Bytes Json
  | .object members => .table (jsonFields members)
  | x => .leaf x
def jsonFields : List (Bytes × Json) → List (Bytes × KeyedTree Bytes Json)
  | [] => []
  | (k, x) :: members => (k, jsonTree x) :: jsonFields members
end

def jsonValue (x : Json) : Option ConfigValue := (parseJsonValue x).toOption

def unsupportedJson : ConfigError := .jsonConfigError "JSON value has unsupported type"

theorem parseJsonValue_eq (x : Json) :
    parseJsonValue x = (jsonValue x).elim (.error unsupportedJson) .ok := by
  cases x <;> rfl

mutual
theorem parseJsonObject_eq (members : List (Bytes × Json)) (keyPrefix : Bytes)
    (result : ServiceConfigMap) : parseJsonObject members keyPrefix result =
      if allRead jsonValue (KeyedTree.fieldsLeaves (jsonFields members)) then
        .ok (result.assignAll
          (leafEntries jsonValue keyPrefix (KeyedTree.fieldsLeaves (jsonFields members))))
      else .error unsupportedJson := by
  cases members with
  | nil => rfl
  | cons m rest =>
      obtain ⟨k, value⟩ := m
      rw [parseJsonObject, parseJsonMember_eq value, jsonFields, allRead_cons, leafEntries_cons,
        ServiceConfigMap.assignAll_append]
      cases allRead jsonValue (jsonTree value).leaves with
      | false => rfl
      | true => exact parseJsonObject_eq rest keyPrefix _
theorem parseJsonMember_eq (value : Json) (key : Bytes) (result : ServiceConfigMap) :
    parseJsonMember value key result =
      if allRead jsonValue (jsonTree value).leaves then
        .ok (result.assignAll (fieldEntries jsonValue key (jsonTree value)))
      else .error unsupportedJson := by
  cases value with
  | object members => exact parseJsonObject_eq members (key ++ [slash]) result
  | _ => rfl
end

/-- `parse_json_doc` of an object. -/
theorem parseJsonDoc_object (members : List (Bytes × Json)) :
    parseJsonDoc (.object members) =
      readLeaves jsonValue unsupportedJson (jsonTree (.object members)).leaves := by
  rw [parseJsonDoc, parseJsonObject_eq, ServiceConfigMap.assignAll_empty]
  rfl

/-! ### TOML -/

def tomlValue : TomlValue → Option ConfigValue
  | .string s => some (.string s)
  | .integer i => (valueSizeT i).map .number
  | .boolean b => some (.boolean b)
  | _ => none

theorem handleValue_eq (r : TomlResult) (configKey : Bytes) (x : TomlValue) :
    (r.handleValue configKey x).result =
        r.result.assignAll ((tomlValue x).map fun value => (configKey, value)).toList ∧
      (r.handleValue configKey x).haveErrors = (r.haveErrors || !(tomlValue x).isSome) := by
  cases x with
  | string s | boolean b => exact ⟨rfl, (Bool.or_false _).symm⟩
  | integer i =>
      simp only [TomlResult.handleValue, tomlValue]
      cases valueSizeT i with
      | none => exact ⟨rfl, (Bool.or_true _).symm⟩
      | some n => exact ⟨rfl, (Bool.or_false _).symm⟩
  | floatingPoint | array | dateTime => exact ⟨rfl, (Bool.or_true _).symm⟩

mutual
theorem handleTable_eq (fields : List (Bytes × TomlNode)) (keyPrefix : Bytes) (r : TomlResult) :
    (handleTable fields keyPrefix r).result =
        r.result.assignAll (leafEntries tomlValue keyPrefix (KeyedTree.fieldsLeaves fields)) ∧
      (handleTable fields keyPrefix r).haveErrors =
        (r.haveErrors || !allRead tomlValue (KeyedTree.fieldsLeaves fields)) := by
  cases fields with
  | nil => exact ⟨rfl, (Bool.or_false _).symm⟩
  | cons f rest =>
      obtain ⟨k, node⟩ := f
      obtain ⟨hresult, hflag⟩ := handleNode_eq node (keyPrefix ++ k) r
      obtain ⟨hresult', hflag'⟩ :=
        handleTable_eq rest keyPrefix (handleNode node (keyPrefix ++ k) r)
      rw [handleTable, hresult', hflag', hresult, hflag, allRead_cons, leafEntries_cons,
        ServiceConfigMap.assignAll_append, Bool.not_and, Bool.or_assoc]
      exact ⟨rfl, rfl⟩
theorem handleNode_eq (node : TomlNode) (configKey : Bytes) (r : TomlResult) :
    (handleNode node configKey r).result =
        r.result.assignAll (fieldEntries tomlValue configKey node) ∧
      (handleNode node configKey r).haveErrors =
        (r.haveErrors || !allRead tomlValue node.leaves) := by
  cases node with
  | leaf value =>
      obtain ⟨hresult, hflag⟩ := handleValue_eq r configKey value
      refine ⟨hresult, ?_⟩
      rw [KeyedTree.leaves_leaf, allRead, List.all_cons, List.all_nil, Bool.and_true]
      exact hflag
  | table fields => exact handleTable_eq fields (configKey ++ [slash]) r
end

def unsupportedToml : ConfigError := .tomlConfigError "Errors in TOML"

theorem handleOuterTable_eq (fields : List (Bytes × TomlNode)) :
    handleOuterTable fields =
      readLeaves tomlValue unsupportedToml (KeyedTree.table fields).leaves := by
  obtain ⟨hresult, hflag⟩ := handleTable_eq fields [] {}
  rw [KeyedTree.leaves, handleOuterTable, readLeaves]
  simp only [hresult, hflag, ServiceConfigMap.assignAll_empty, Bool.false_or, Bool.not_eq_true']
  by_cases hread : allRead tomlValue (KeyedTree.fieldsLeaves fields) = true
  · rw [if_neg (by simp [hread]), if_pos hread]
  · rw [if_pos (by simpa using hread), if_neg hread]
    rfl

/-! ## One document in both notations -/

/-- What is in a field that is no table.  The items of an array are given in JSON. -/
inductive ConfigLeaf
  | string (s : Bytes)
  | boolean (b : Bool)
  | integer (i : Int64)
  | float (x : Double)
  | array (items : List Json)

/-- A document as it is written, with the fields of its tables in the order of the text. -/
abbrev Document := KeyedTree Bytes ConfigLeaf

namespace ConfigLeaf

def json : ConfigLeaf → Json
  | string s => .string s
  | boolean b => .boolean b
  | integer i => .integer i.toInt
  | float x => .float x
  | array items => .array items

def toml : ConfigLeaf → TomlValue
  | string s => .string s
  | boolean b => .boolean b
  | integer i => .integer i
  | float _ => .floatingPoint
  | array _ => .array

/-- Neither a string nor a boolean nor an integer. -/
def isOther : ConfigLeaf → Bool
  | float _ | array _ => true
  | _ => false

def isNegative : ConfigLeaf → Bool
  | integer i => i.toInt < 0
  | _ => false

variable {x y : ConfigLeaf}

theorem jsonValue_isSome : (jsonValue x.json).isSome = !x.isOther := by
  cases x <;> rfl

theorem tomlValue_isSome : (tomlValue x.toml).isSome = (!x.isOther && !x.isNegative) := by
  cases x with
  | integer i =>
      simp only [toml, tomlValue, valueSizeT, isOther, isNegative]
      split
      · rename_i h
        simp [h]
      · rename_i h
        simp [h]
  | _ => rfl

/-- Both readers take a leaf for the same value, unless it is a negative number. -/
theorem jsonValue_eq (h : x.isNegative = false) : jsonValue x.json = tomlValue x.toml := by
  cases x with
  | integer i =>
      have hpos : ¬ i.toInt < 0 := by simpa [isNegative] using h
      simp only [toml, tomlValue, valueSizeT, if_neg hpos]
      rfl
  | _ => rfl

theorem ofInt_toInt_inj {i j : Int64} (hi : ¬ i.toInt < 0) (hj : ¬ j.toInt < 0)
    (h : UInt64.ofInt i.toInt = UInt64.ofInt j.toInt) : i = j := by
  have hlti := i.toInt_lt
  have hltj := j.toInt_lt
  have hnat := congrArg UInt64.toNat h
  simp only [UInt64.ofInt, UInt64.toNat_ofNat'] at hnat
  apply Int64.toInt_inj.mp
  omega

/-- No two leaves are taken for the same value. -/
theorem eq_of_tomlValue_eq (hx : (tomlValue x.toml).isSome = true)
    (h : tomlValue x.toml = tomlValue y.toml) : x = y := by
  cases x with
  | float _ | array _ => cases hx
  | string s | boolean b =>
      cases y with
      | integer j =>
          simp only [toml, tomlValue] at h
          cases hj : valueSizeT j <;> rw [hj] at h <;> cases h
      | _ => cases h <;> rfl
  | integer i =>
      simp only [toml, tomlValue, valueSizeT] at hx h
      split at hx
      · cases hx
      · rename_i hi
        rw [if_neg hi] at h
        cases y with
        | integer j =>
            simp only at h
            split at h
            · cases h
            · rename_i hj
              simp only [Option.map_some, Option.some.injEq, ConfigValue.number.injEq] at h
              rw [ofInt_toInt_inj hi hj h]
        | _ => cases h

end ConfigLeaf

mutual
/-- What simdjson makes of the document. -/
def Document.json : Document → Json
  | .leaf x => x.json
  | .table fields => .object (fieldsJson fields)
def fieldsJson : List (Bytes × Document) → List (Bytes × Json)
  | [] => []
  | (k, d) :: fields => (k, Document.json d) :: fieldsJson fields
end

/-- The tables that toml++ makes of the document. -/
def tomlTable (fields : List (Bytes × Document)) : List (Bytes × TomlNode) :=
  KeyedTree.mapFields ConfigLeaf.toml (Assoc.ofEntries (KeyedTree.fieldsInOrder fields))

theorem jsonTree_json (d : Document) : jsonTree (Document.json d) = d.map ConfigLeaf.json := by
  induction d using KeyedTree.induction with
  | leaf x => cases x <;> rfl
  | table fields ih =>
      induction fields with
      | nil => rfl
      | cons f fields ihfields =>
          obtain ⟨k, d⟩ := f
          obtain ⟨hd, hfields⟩ := List.forall_mem_cons.mp ih
          have hrest := ihfields hfields
          simp only [Document.json, jsonTree, KeyedTree.map, KeyedTree.table.injEq] at hrest hd ⊢
          rw [fieldsJson, jsonFields, KeyedTree.mapFields, hrest, hd]

section
variable {α β : Type*} {read : β → Option ConfigValue} {f : α → β}
  {leaves : List (List Bytes × α)}

theorem readLeaves_map {error : ConfigError} :
    readLeaves read error (leaves.map fun x => (x.1, f x.2)) =
      readLeaves (fun x => read (f x)) error leaves := by
  simp only [readLeaves, allRead, leafEntries, List.all_map, List.filterMap_map]
  rfl

end

/-! ## When the readers agree -/

/-- Both reject, or both return the same map. -/
def Agree : Except ConfigError ServiceConfigMap → Except ConfigError ServiceConfigMap → Prop
  | .ok m, .ok m' => m = m'
  | .error _, .error _ => True
  | _, _ => False

instance (x y : Except ConfigError ServiceConfigMap) : Decidable (Agree x y) :=
  match x, y with
  | .ok m, .ok m' => inferInstanceAs (Decidable (m = m'))
  | .error _, .error _ => .isTrue trivial
  | .ok _, .error _ | .error _, .ok _ => .isFalse id

/-- The last of the leaves whose keys make up the key. -/
def lastLeaf {α : Type*} (key : Bytes) (leaves : List (List Bytes × α)) : Option α :=
  Assoc.find key (leaves.map fun x => (configKey x.1, x.2)).reverse

/-- Some leaf is neither a string nor a boolean nor an integer; or no integer is negative, and the
leaf that comes last for a key in the text also comes last in the order of the keys. -/
def ReadAlike (d : Document) : Prop :=
  (∃ x ∈ d.leaves, x.2.isOther = true) ∨
    (∀ x ∈ d.leaves, x.2.isNegative = false) ∧
      ∀ key, lastLeaf key d.leaves = lastLeaf key d.inOrder.leaves

theorem find_leafEntries {α : Type*} {read : α → Option ConfigValue}
    {leaves : List (List Bytes × α)} (h : ∀ x ∈ leaves, (read x.2).isSome = true) (key : Bytes) :
    Assoc.find key (Assoc.ofEntries (leafEntries read [] leaves)) =
      (lastLeaf key leaves).bind read := by
  have hfind {leaves : List (List Bytes × α)} (h : ∀ x ∈ leaves, (read x.2).isSome = true) :
      Assoc.find key (leafEntries read [] leaves) =
        (Assoc.find key (leaves.map fun x => (configKey x.1, x.2))).bind read := by
    induction leaves with
    | nil => rfl
    | cons x leaves ih =>
        obtain ⟨hx, hleaves⟩ := List.forall_mem_cons.mp h
        obtain ⟨value, hvalue⟩ := Option.isSome_iff_exists.mp hx
        rw [leafEntries, List.filterMap_cons_some (b := ([] ++ configKey x.1, value))
          (by rw [hvalue, Option.map_some]), List.map_cons, Assoc.find_cons, Assoc.find_cons,
          List.nil_append]
        split
        · exact hvalue.symm
        · exact ih hleaves
  rw [Assoc.ofEntries, Assoc.find_foldl_assign, Assoc.find_nil, Option.or_none, lastLeaf,
    ← List.map_reverse, ← hfind fun x hx => h x (List.mem_reverse.mp hx), leafEntries,
    leafEntries, List.filterMap_reverse]

theorem exists_of_lastLeaf {α : Type*} {leaves : List (List Bytes × α)} {key : Bytes} {a : α}
    (h : lastLeaf key leaves = some a) : ∃ x ∈ leaves, x.2 = a := by
  obtain ⟨y, hy, rfl⟩ := Option.map_eq_some_iff.mp h
  obtain ⟨x, hx, rfl⟩ := List.mem_map.mp (List.mem_reverse.mp (List.mem_of_find?_eq_some hy))
  exact ⟨x, hx, rfl⟩

/-- Two lists of leaves that are read leaf by leaf alike. -/
theorem ofEntries_eq_iff {leaves leaves' : List (List Bytes × ConfigLeaf)}
    (h : ∀ x ∈ leaves, (tomlValue x.2.toml).isSome = true)
    (h' : ∀ x ∈ leaves', (tomlValue x.2.toml).isSome = true) :
    Assoc.ofEntries (leafEntries (fun x : ConfigLeaf => tomlValue x.toml) [] leaves) =
        Assoc.ofEntries (leafEntries (fun x : ConfigLeaf => tomlValue x.toml) [] leaves') ↔
      ∀ key, lastLeaf key leaves = lastLeaf key leaves' := by
  constructor
  · intro heq key
    have hfind := congrArg (Assoc.find key) heq
    rw [find_leafEntries h, find_leafEntries h'] at hfind
    cases hlast : lastLeaf key leaves with
    | none =>
        cases hlast' : lastLeaf key leaves' with
        | none => rfl
        | some y =>
            obtain ⟨x, hx, rfl⟩ := exists_of_lastLeaf hlast'
            rw [hlast, hlast'] at hfind
            have hsome := h' x hx
            rw [← Option.bind_some (f := fun x : ConfigLeaf => tomlValue x.toml), ← hfind] at hsome
            cases hsome
    | some y =>
        obtain ⟨x, hx, rfl⟩ := exists_of_lastLeaf hlast
        rw [hlast, Option.bind_some] at hfind
        cases hlast' : lastLeaf key leaves' with
        | none =>
            have hsome := h x hx
            rw [hfind, hlast'] at hsome
            cases hsome
        | some y =>
            rw [hlast', Option.bind_some] at hfind
            rw [ConfigLeaf.eq_of_tomlValue_eq (h x hx) hfind]
  · intro hlast
    refine (Assoc.sorted_ofEntries _).eq_of_find (Assoc.sorted_ofEntries _) fun key => ?_
    rw [find_leafEntries h, find_leafEntries h', hlast]

theorem readLeaves_agree_iff {d : Document} (hdistinct : d.DistinctKeys) :
    Agree (readLeaves jsonValue unsupportedJson (jsonTree (Document.json d)).leaves)
        (readLeaves tomlValue unsupportedToml (d.inOrder.map ConfigLeaf.toml).leaves) ↔
      ReadAlike d := by
  have hperm := hdistinct.leaves_inOrder_perm
  have hmem (x) : x ∈ d.inOrder.leaves ↔ x ∈ d.leaves := hperm.mem_iff
  rw [jsonTree_json, KeyedTree.leaves_map, KeyedTree.leaves_map, readLeaves_map, readLeaves_map,
    ReadAlike]
  have hjson : allRead (fun x : ConfigLeaf => jsonValue x.json) d.leaves = true ↔
      ∀ x ∈ d.leaves, x.2.isOther = false := by
    simp [allRead, ConfigLeaf.jsonValue_isSome]
  have htoml : allRead (fun x : ConfigLeaf => tomlValue x.toml) d.inOrder.leaves = true ↔
      ∀ x ∈ d.leaves, x.2.isOther = false ∧ x.2.isNegative = false := by
    simp [allRead, ConfigLeaf.tomlValue_isSome, hmem]
  by_cases hother : ∃ x ∈ d.leaves, x.2.isOther = true
  · obtain ⟨x, hx, hxother⟩ := hother
    have hnot : ¬ ∀ x ∈ d.leaves, x.2.isOther = false := fun h => by
      rw [h x hx] at hxother
      cases hxother
    rw [readLeaves, readLeaves, if_neg (mt hjson.mp hnot),
      if_neg (mt htoml.mp fun h => hnot fun x hx => (h x hx).1)]
    exact iff_of_true trivial (.inl ⟨x, hx, hxother⟩)
  · have hall : ∀ x ∈ d.leaves, x.2.isOther = false := by simpa using hother
    rw [or_iff_right hother, readLeaves, if_pos (hjson.mpr hall), readLeaves]
    by_cases hneg : ∀ x ∈ d.leaves, x.2.isNegative = false
    · have hread : ∀ x ∈ d.leaves, (tomlValue x.2.toml).isSome = true := fun x hx => by
        rw [ConfigLeaf.tomlValue_isSome, hall x hx, hneg x hx]
        rfl
      have hentries : leafEntries (fun x : ConfigLeaf => jsonValue x.json) [] d.leaves =
          leafEntries (fun x : ConfigLeaf => tomlValue x.toml) [] d.leaves := by
        refine List.filterMap_congr fun x hx => ?_
        simp only [ConfigLeaf.jsonValue_eq (hneg x hx)]
      rw [if_pos (htoml.mpr fun x hx => ⟨hall x hx, hneg x hx⟩), and_iff_right hneg,
        ← ofEntries_eq_iff hread fun x hx => hread x ((hmem x).mp hx), ← hentries]
      exact ServiceConfigMap.ext_iff
    · rw [if_neg (mt htoml.mp fun h => hneg fun x hx => (h x hx).2)]
      exact iff_of_false id fun h => hneg h.1

section
variable {parseJson : Bytes → Except ConfigError Json}
  {parseToml : Bytes → Except ConfigError (List (Bytes × TomlNode))} {jsonText tomlText : Bytes}
  {fields : List (Bytes × Document)}

/-- Of a document in both notations both readers make the same, or nothing, exactly if they read
its leaves alike. -/
theorem readers_agree_iff (hdistinct : KeyedTree.DistinctKeys (.table fields))
    (hjson : parseJson jsonText = .ok (.object (fieldsJson fields)))
    (htoml : parseToml tomlText = .ok (tomlTable fields)) :
    Agree (readConfigMapFromJson parseJson jsonText) (readConfigMapFromToml parseToml tomlText) ↔
      ReadAlike (.table fields) := by
  have hreadJson : readConfigMapFromJson parseJson jsonText =
      readLeaves jsonValue unsupportedJson (jsonTree (Document.json (.table fields))).leaves := by
    rw [readConfigMapFromJson, hjson]
    exact parseJsonDoc_object (fieldsJson fields)
  have hreadToml : readConfigMapFromToml parseToml tomlText = readLeaves tomlValue unsupportedToml
      ((KeyedTree.table fields).inOrder.map ConfigLeaf.toml).leaves := by
    rw [readConfigMapFromToml, htoml]
    exact handleOuterTable_eq (tomlTable fields)
  rw [hreadJson, hreadToml]
  exact readLeaves_agree_iff hdistinct

end

/-- The setting `a`. -/
def oneSetting (i : Int64) : List (Bytes × Document) := [(ascii ['a'], .leaf (.integer i))]

/-- Of all texts only this one is read. -/
def parseOnly {α : Type} (text : Bytes) (doc : α) (input : Bytes) : Except ConfigError α :=
  if input = text then .ok doc else .error .parseError

theorem readers_agree_iff_one :
    Agree
        (readConfigMapFromJson
          (parseOnly (ascii ['{', '"', 'a', '"', ':', '1', '}']) (.object (fieldsJson (oneSetting 1))))
          (ascii ['{', '"', 'a', '"', ':', '1', '}']))
        (readConfigMapFromToml
          (parseOnly (ascii ['a', '=', '1']) (tomlTable (oneSetting 1))) (ascii ['a', '=', '1'])) ↔
      ReadAlike (.table (oneSetting 1)) :=
  readers_agree_iff
    (.table (List.nodup_singleton _) fun f hf => by
      rw [List.mem_singleton.mp hf]
      exact .leaf _)
    rfl rfl

/-- A negative number is a number of settings for JSON, and an error for TOML. -/
theorem not_readers_agree_negative :
    ¬ Agree
      (readConfigMapFromJson
        (parseOnly (ascii ['{', '"', 'a', '"', ':', '-', '1', '}'])
          (.object (fieldsJson (oneSetting (-1)))))
        (ascii ['{', '"', 'a', '"', ':', '-', '1', '}']))
      (readConfigMapFromToml
        (parseOnly (ascii ['a', '=', '-', '1']) (tomlTable (oneSetting (-1))))
        (ascii ['a', '=', '-', '1'])) := by
  decide

end Cradle.Service
