import Cradle.Service.ConfigMaps

/-!
# Configuration maps on their way to a server

The client writes its configuration map as a JSON document, and the server reads it again.  A key
with a slash becomes a member of an object within the document.  The keys come in their order, so
that no entry takes the place of another one.
-/

namespace Cradle.Service

/-- `split_key`. -/
def splitKey (key : Bytes) : List Bytes := key.splitOn slash

def ConfigValue.json : ConfigValue → Json
  | string s => .string s
  | number n => .integer n.toNat
  | boolean b => .boolean b

/-- A change of `j[key]`.  What is null becomes an object, and a new member is null. -/
def update (key : Bytes) (f : Json → Except ConfigError Json) : Json → Except ConfigError Json
  | .null => do return .object [(key, ← f .null)]
  | .object members => do
      let member ← f ((Assoc.find key members).getD .null)
      return .object (Assoc.assign key member members)
  | _ => .error .typeError

/-- What `write_config_map_to_json` does with one entry. -/
def writeEntry (j : Json) (entry : Bytes × ConfigValue) : Except ConfigError Json :=
  match splitKey entry.1 with
  | [k] => update k (fun _ => .ok entry.2.json) j
  | [k, l] => update k (update l fun _ => .ok entry.2.json) j
  | _ => .error (.invalidKey entry.1)

/-- `write_config_map_to_json`. -/
def writeConfigMapToJson (dump : Json → Except ConfigError Bytes) (map : ServiceConfigMap) :
    Except ConfigError Bytes := do
  dump (← map.entries.foldlM writeEntry .null)

/-! ## The documents that are written -/

/-- Values, and objects of such documents that are not empty. -/
inductive Written : Json → Prop
  | value (v : ConfigValue) : Written v.json
  | object {members : List (Bytes × Json)} (nonempty : members ≠ []) (sorted : Assoc.Sorted members)
      (members_written : ∀ m ∈ members, Written m.2) : Written (.object members)

/-- What is printed is read as it was, members of objects in their order. -/
def Faithful (dump : Json → Except ConfigError Bytes) (parse : Bytes → Except ConfigError Json) :
    Prop :=
  ∀ j text, j = .null ∨ Written j → dump j = .ok text → parse text = .ok j

/-- The entries that a reader finds in an object. -/
def entriesIn (keyPrefix : Bytes) (members : List (Bytes × Json)) : List (Bytes × ConfigValue) :=
  members.flatMap fun m => fieldEntries jsonValue (keyPrefix ++ m.1) (jsonTree m.2)

variable {k l key keyPrefix : Bytes} {v : ConfigValue} {x y j : Json}
  {members : List (Bytes × Json)} {entries : List (Bytes × ConfigValue)}

theorem leafEntries_jsonFields :
    leafEntries jsonValue keyPrefix (KeyedTree.fieldsLeaves (jsonFields members)) =
      entriesIn keyPrefix members := by
  induction members with
  | nil => rfl
  | cons m members ih =>
      obtain ⟨k, x⟩ := m
      rw [jsonFields, leafEntries_cons, ih]
      rfl

theorem fieldEntries_object :
    fieldEntries jsonValue key (jsonTree (.object members)) =
      entriesIn (key ++ [slash]) members :=
  leafEntries_jsonFields

@[simp] theorem jsonValue_json : jsonValue v.json = some v := by
  cases v with
  | number n =>
      have hcast : UInt64.ofInt n.toNat = n := by
        apply UInt64.toNat_inj.mp
        have hlt := n.toNat_lt
        simp only [UInt64.ofInt, UInt64.toNat_ofNat']
        omega
      exact congrArg (fun n => some (ConfigValue.number n)) hcast
  | _ => rfl

@[simp] theorem jsonTree_value : jsonTree v.json = .leaf v.json := by
  cases v <;> rfl

theorem fieldEntries_value : fieldEntries jsonValue key (jsonTree v.json) = [(key, v)] := by
  rw [jsonTree_value, fieldEntries, jsonValue_json]
  rfl

/-- A document that is written has an entry. -/
theorem Written.exists_entry (h : Written x) (key : Bytes) :
    ∃ e ∈ fieldEntries jsonValue key (jsonTree x), key <+: e.1 := by
  induction h generalizing key with
  | value v =>
      rw [fieldEntries_value]
      exact ⟨(key, v), List.mem_singleton_self _, List.prefix_refl key⟩
  | @object members nonempty _ _ ih =>
      obtain ⟨m, hm⟩ := List.exists_mem_of_ne_nil members nonempty
      obtain ⟨e, he, hprefix⟩ := ih m hm (key ++ [slash] ++ m.1)
      rw [fieldEntries_object]
      refine ⟨e, List.mem_flatMap.mpr ⟨m, hm, he⟩, ?_⟩
      rw [List.append_assoc] at hprefix
      exact (List.prefix_append key _).trans hprefix

/-- All leaves of a document that is written are values. -/
theorem Written.allRead (h : Written x) : allRead jsonValue (jsonTree x).leaves = true := by
  induction h with
  | value v => simp [Service.allRead]
  | @object members _ _ _ ih =>
      clear * - ih
      rw [jsonTree, KeyedTree.leaves]
      induction members with
      | nil => rfl
      | cons m members ihmembers =>
          obtain ⟨k, x⟩ := m
          obtain ⟨hx, hmembers⟩ := List.forall_mem_cons.mp ih
          rw [jsonFields, allRead_cons, hx, ihmembers hmembers]
          rfl

/-- The members that a document has, where null has none. -/
def ofMembers : List (Bytes × Json) → Json
  | [] => .null
  | m :: members => .object (m :: members)

theorem ofMembers_of_ne_nil (h : members ≠ []) : ofMembers members = .object members := by
  cases members with
  | nil => exact absurd rfl h
  | cons m members => rfl

theorem assign_ne_nil : Assoc.assign k y members ≠ [] := by
  cases members with
  | nil => exact List.cons_ne_nil _ _
  | cons m members =>
      rw [Assoc.assign]
      split
      · exact List.cons_ne_nil _ _
      · split <;> exact List.cons_ne_nil _ _

theorem update_ofMembers {f : Json → Except ConfigError Json} :
    update k f (ofMembers members) = (do
      let member ← f ((Assoc.find k members).getD .null)
      return ofMembers (Assoc.assign k member members)) := by
  cases members with
  | nil => rfl
  | cons m members =>
      rw [ofMembers, update]
      simp only [ofMembers_of_ne_nil assign_ne_nil]

theorem fieldEntries_ofMembers :
    fieldEntries jsonValue key (jsonTree (ofMembers members)) =
      entriesIn (key ++ [slash]) members := by
  cases members with
  | nil => rfl
  | cons m members => exact fieldEntries_object

/-- What a change of a member leaves alone is null or an object. -/
theorem exists_members_of_update {f : Json → Except ConfigError Json}
    (hx : x = .null ∨ Written x) (h : update k f x = .ok y) :
    ∃ members, x = ofMembers members ∧ Assoc.Sorted members ∧ ∀ m ∈ members, Written m.2 := by
  rcases hx with rfl | hx
  · exact ⟨[], rfl, List.Pairwise.nil, nofun⟩
  · cases hx with
    | value v => cases v <;> cases h
    | object nonempty sorted members_written =>
        exact ⟨_, (ofMembers_of_ne_nil nonempty).symm, sorted, members_written⟩

/-! ## What one entry adds -/

/-- What is added to one member is added to the object. -/
theorem entriesIn_assign_perm (hsorted : Assoc.Sorted members)
    (h : (fieldEntries jsonValue (keyPrefix ++ k) (jsonTree y)).Perm
      ((key, v) :: fieldEntries jsonValue (keyPrefix ++ k)
        (jsonTree ((Assoc.find k members).getD .null)))) :
    (entriesIn keyPrefix (Assoc.assign k y members)).Perm
      ((key, v) :: entriesIn keyPrefix members) := by
  cases hfind : Assoc.find k members with
  | none =>
      have hnot : k ∉ members.map Prod.fst := fun hk => by
        rw [← Assoc.find_isSome_iff, hfind] at hk
        cases hk
      rw [hfind, Option.getD_none] at h
      refine ((Assoc.assign_perm hnot).flatMap_right _).trans ?_
      rw [List.flatMap_cons]
      exact h.append_right _
  | some x =>
      obtain ⟨rest, hperm, hassign⟩ := hsorted.assign_perm_of_find (v := y) hfind
      rw [hfind, Option.getD_some] at h
      have hold := hperm.flatMap_right
        fun m => fieldEntries jsonValue (keyPrefix ++ m.1) (jsonTree m.2)
      refine (hassign.flatMap_right _).trans ?_
      refine List.Perm.trans ?_ (hold.symm.cons (key, v))
      rw [List.flatMap_cons, List.flatMap_cons]
      exact h.append_right _

/-- A member that no entry goes through is not there. -/
theorem find_eq_none_of_entries (keyPrefix : Bytes) (hwritten : ∀ m ∈ members, Written m.2)
    (h : ∀ e ∈ entriesIn keyPrefix members, ¬ keyPrefix ++ k <+: e.1) :
    Assoc.find k members = none := by
  apply Assoc.find_eq_none
  intro hk
  obtain ⟨m, hm, rfl⟩ := List.mem_map.mp hk
  obtain ⟨e, he, hprefix⟩ := (hwritten m hm).exists_entry (keyPrefix ++ m.1)
  exact h e (List.mem_flatMap.mpr ⟨m, hm, he⟩) hprefix

theorem members_written_assign (hwritten : ∀ m ∈ members, Written m.2) (hy : Written y) :
    ∀ m ∈ Assoc.assign k y members, Written m.2 := by
  intro m hm
  rcases List.mem_cons.mp (Assoc.assign_subperm.subset hm) with rfl | hm
  · exact hy
  · exact hwritten m hm

/-- The document has the entries, and no others. -/
structure Holds (entries : List (Bytes × ConfigValue)) (members : List (Bytes × Json)) : Prop where
  sorted : Assoc.Sorted members
  members_written : ∀ m ∈ members, Written m.2
  entries : (entriesIn [] members).Perm entries

theorem splitKey_eq (key : Bytes) : [slash].intercalate (splitKey key) = key :=
  List.intercalate_splitOn slash

/-- An entry with a key above all others is added. -/
theorem Holds.writeEntry {written : List (Bytes × ConfigValue)} {entry : Bytes × ConfigValue}
    (h : Holds written members) (hlt : ∀ e ∈ written, e.1 < entry.1)
    (hj : writeEntry (ofMembers members) entry = .ok j) :
    ∃ members', j = ofMembers members' ∧ Holds (written ++ [entry]) members' := by
  obtain ⟨key, v⟩ := entry
  have hnew : ∀ e ∈ entriesIn [] members, ¬ key <+: e.1 := fun e he hprefix =>
    hprefix.le (hlt e (h.entries.mem_iff.mp he))
  have hsplit := splitKey_eq key
  have hadd {members' : List (Bytes × Json)}
      (hperm : (entriesIn [] members').Perm ((key, v) :: entriesIn [] members)) :
      (entriesIn [] members').Perm (written ++ [(key, v)]) :=
    hperm.trans ((h.entries.cons _).trans (List.perm_append_singleton _ _).symm)
  rw [Service.writeEntry] at hj
  split at hj
  · rename_i k hk
    dsimp only at hk hj
    rw [hk, List.intercalate_singleton] at hsplit
    subst hsplit
    have hfind : Assoc.find k members = none :=
      find_eq_none_of_entries [] h.members_written hnew
    rw [update_ofMembers] at hj
    cases hj
    refine ⟨_, rfl, h.sorted.assign, members_written_assign h.members_written (.value v), hadd ?_⟩
    refine entriesIn_assign_perm h.sorted ?_
    rw [fieldEntries_value, hfind]
    exact List.Perm.refl _
  · rename_i k l hk
    dsimp only at hk hj
    rw [hk, List.intercalate_cons_cons, List.intercalate_singleton] at hsplit
    subst hsplit
    rw [update_ofMembers] at hj
    obtain ⟨y, hy, hj⟩ := Except.bind_eq_ok.mp hj
    cases hj
    have hmember : (Assoc.find k members).getD .null = .null ∨
        Written ((Assoc.find k members).getD .null) := by
      cases hfind : Assoc.find k members with
      | none => exact .inl rfl
      | some x =>
          exact .inr (h.members_written _ ((Assoc.mem_iff_find h.sorted.nodup).mpr hfind))
    obtain ⟨inner, hinner, hsorted, hwritten⟩ := exists_members_of_update hmember hy
    have hfresh : Assoc.find l inner = none := by
      apply find_eq_none_of_entries (k ++ [slash]) hwritten
      intro e he
      apply hnew e
      -- The entries of the member are among those of the document.
      rw [← fieldEntries_ofMembers, ← hinner] at he
      cases hfind : Assoc.find k members with
      | none =>
          rw [hfind] at he
          cases he
      | some x =>
          rw [hfind] at he
          exact List.mem_flatMap.mpr
            ⟨(k, x), (Assoc.mem_iff_find h.sorted.nodup).mpr hfind, he⟩
    rw [hinner, update_ofMembers] at hy
    cases hy
    refine ⟨_, rfl, h.sorted.assign, members_written_assign h.members_written ?_, hadd ?_⟩
    · rw [ofMembers_of_ne_nil assign_ne_nil]
      exact .object assign_ne_nil hsorted.assign (members_written_assign hwritten (.value v))
    · refine entriesIn_assign_perm h.sorted ?_
      rw [hinner, fieldEntries_ofMembers, fieldEntries_ofMembers, List.nil_append]
      refine entriesIn_assign_perm hsorted ?_
      rw [fieldEntries_value, hfresh]
      exact List.Perm.refl _
  · cases hj

/-- What `write_config_map_to_json` builds, if it does not throw. -/
theorem Holds.writeEntries {written rest : List (Bytes × ConfigValue)} (h : Holds written members)
    (hsorted : Assoc.Sorted (written ++ rest))
    (hj : rest.foldlM Service.writeEntry (ofMembers members) = .ok j) :
    ∃ members', j = ofMembers members' ∧ Holds (written ++ rest) members' := by
  induction rest generalizing written members with
  | nil =>
      cases hj
      rw [List.append_nil]
      exact ⟨members, rfl, h⟩
  | cons entry rest ih =>
      rw [List.foldlM_cons] at hj
      obtain ⟨j', hj', hrest⟩ := Except.bind_eq_ok.mp hj
      have hlt : ∀ e ∈ written, e.1 < entry.1 := fun e he =>
        (List.pairwise_append.mp hsorted).2.2 e he entry List.mem_cons_self
      obtain ⟨members', rfl, h'⟩ := h.writeEntry hlt hj'
      rw [List.append_cons] at hsorted ⊢
      exact ih h' hsorted hrest

/-! ## The round trip -/

/-- What is written, if anything is, is read as the same map. -/
def Survives (dump : Json → Except ConfigError Bytes) (parse : Bytes → Except ConfigError Json)
    (map : ServiceConfigMap) : Prop :=
  ∀ text, writeConfigMapToJson dump map = .ok text → readConfigMapFromJson parse text = .ok map

theorem parseJsonDoc_of_holds {map : ServiceConfigMap} (h : Holds map.entries members)
    (hne : members ≠ []) : parseJsonDoc (.object members) = .ok map := by
  have hread := (Written.object hne h.sorted h.members_written).allRead
  have hentries : leafEntries jsonValue [] (jsonTree (.object members)).leaves =
      entriesIn [] members := leafEntries_jsonFields
  rw [parseJsonDoc_object, readLeaves, if_pos hread]
  refine congrArg Except.ok (ServiceConfigMap.ext ?_)
  have hperm : (Assoc.ofEntries (entriesIn [] members)).Perm map.entries := by
    refine List.Perm.trans (Assoc.ofEntries_perm_iff.mpr ?_) h.entries
    exact (h.entries.map Prod.fst).nodup_iff.mpr map.sorted.nodup
  rw [← hentries] at hperm
  exact (Assoc.sorted_ofEntries _).eq_of_perm map.sorted hperm

/-- Every map but the empty one survives: that one is written as null. -/
theorem survives_iff {dump : Json → Except ConfigError Bytes}
    {parse : Bytes → Except ConfigError Json} (hfaithful : Faithful dump parse)
    (hnull : ∃ text, dump .null = .ok text) (map : ServiceConfigMap) :
    Survives dump parse map ↔ map.entries ≠ [] := by
  constructor
  · intro hsurvives hempty
    obtain ⟨text, htext⟩ := hnull
    have hwrite : writeConfigMapToJson dump map = .ok text := by
      rw [writeConfigMapToJson, hempty]
      exact htext
    have hread := hsurvives text hwrite
    rw [readConfigMapFromJson, hfaithful .null text (.inl rfl) htext] at hread
    cases hread
  · intro hne text hwrite
    obtain ⟨j, hj, hdump⟩ := Except.bind_eq_ok.mp hwrite
    have hstart : Holds [] [] := by
      refine ⟨List.Pairwise.nil, ?_, List.Perm.refl _⟩
      intro m hm
      cases hm
    obtain ⟨members, rfl, hholds⟩ := hstart.writeEntries map.sorted hj
    have hmembers : members ≠ [] := by
      rintro rfl
      exact hne (List.nil_perm.mp hholds.entries)
    rw [ofMembers_of_ne_nil hmembers] at hdump
    have hdoc : Written (.object members) := .object hmembers hholds.sorted hholds.members_written
    rw [readConfigMapFromJson, hfaithful _ text (.inr hdoc) hdump]
    exact parseJsonDoc_of_holds hholds hmembers

/-! ### An instance -/

/-- `null` and `{"a":true}`. -/
def nullText : Bytes := ascii ['n', 'u', 'l', 'l']
def settingText : Bytes := ascii ['{', '"', 'a', '"', ':', 't', 'r', 'u', 'e', '}']

/-- The documents `null` and `{"a":true}` are printed, and no others. -/
def dumpSome : Json → Except ConfigError Bytes
  | .null => .ok nullText
  | .object [(k, .boolean true)] => if k = ascii ['a'] then .ok settingText else .error .typeError
  | _ => .error .typeError

def parseSome (text : Bytes) : Except ConfigError Json :=
  if text = nullText then .ok .null
  else if text = settingText then .ok (.object [(ascii ['a'], .boolean true)])
  else .error .parseError

theorem faithful_dumpSome : Faithful dumpSome parseSome := by
  intro j text _ h
  unfold dumpSome at h
  split at h
  · cases h
    rfl
  · split at h
    · rename_i hk
      cases h
      rw [hk]
      rfl
    · cases h
  · cases h

theorem survives_iff_setting :
    Survives dumpSome parseSome ⟨[(ascii ['a'], .boolean true)], List.pairwise_singleton _ _⟩ ↔
      [(ascii ['a'], ConfigValue.boolean true)] ≠ [] :=
  survives_iff faithful_dumpSome ⟨nullText, rfl⟩ _

/-- The empty map is written as null, which is no object. -/
theorem not_survives_empty : ¬ Survives dumpSome parseSome {} := by
  intro h
  cases h nullText rfl

end Cradle.Service
