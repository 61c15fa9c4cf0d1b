import Cradle.Lib.Assoc
import Cradle.Lib.Decoder
import Cradle.Thinknode.Types

/-!
# Schemas in URLs

A schema is written into a URL as a sequence of components with a slash between any two.
Type codes, counts and names all are components, and a name may well be spelled like a type
code; the parser knows from its position and from the counts which of them it reads.
-/

namespace Cradle.Thinknode

/-- What is thrown: a `char const*`, a `std::string`, the `bad_lexical_cast` of Boost, the
`out_of_range` of `substr`, or a `parsing_error`. -/
inductive Thrown
  | message (what : Text)
  | string (what : Text)
  | badLexicalCast
  | outOfRange
  | parsingError (expectedFormat message parsedText : Text)
  deriving DecidableEq

/-! ## The printer -/

/-- `std::string::find`, where the text is not found `npos`. -/
def findText (what text : Text) : ℕ :=
  match text.tails.findIdx? what.isPrefixOf with
  | some i => i
  | none => 2 ^ 64 - 1

/-- `std::string::substr`. -/
def substr (text : Text) (pos count : ℕ) : Except Thrown Text :=
  if pos ≤ text.length then .ok ((text.drop pos).take count) else .error .outOfRange

/-- `get_account_name`; positions are taken modulo the size of `size_t`. -/
def getAccountName (apiUrl : Text) : Except Thrown Text :=
  let start := (findText "://".toList apiUrl + 3) % 2 ^ 64
  let stop := findText ".".toList apiUrl
  substr apiUrl start ((stop + 2 ^ 64 - start) % 2 ^ 64)

/-- What stands for the account in a template. -/
def accountMarker : Text := "{account}".toList

mutual
/-- `get_url_type_template`. -/
def getUrlTypeTemplate : TypeInfo → Text
  | .array elementSchema _ => "array/".toList ++ getUrlTypeTemplate elementSchema
  | .blob => "blob".toList
  | .boolean => "boolean".toList
  | .datetime => "datetime".toList
  | .dynamic => "dynamic".toList
  | .enum values =>
      "enum/".toList ++ Nat.toDigits 10 values.length ++ values.flatMap fun v => '/' :: v.1
  | .float => "float".toList
  | .integer => "integer".toList
  | .map keySchema valueSchema =>
      "map/".toList ++ getUrlTypeTemplate keySchema ++ "/".toList ++
        getUrlTypeTemplate valueSchema
  | .named account app name =>
      "named/".toList ++ account.getD accountMarker ++ "/".toList ++ app ++ "/".toList ++ name
  | .nil => "nil".toList
  | .optional schema => "optional/".toList ++ getUrlTypeTemplate schema
  | .reference schema => "reference/".toList ++ getUrlTypeTemplate schema
  | .string => "string".toList
  | .structure fields =>
      "structure/".toList ++ Nat.toDigits 10 fields.length ++ fieldsTemplate fields
  | .union members =>
      "union/".toList ++ Nat.toDigits 10 members.length ++ membersTemplate members
/-- The loop over the fields. -/
def fieldsTemplate : List (Text × StructureFieldInfo TypeInfo) → Text
  | [] => []
  | (name, ⟨_, _, schema⟩) :: fields =>
      "/".toList ++ name ++ "/".toList ++ getUrlTypeTemplate schema ++ fieldsTemplate fields
/-- The loop over the members. -/
def membersTemplate : List (Text × UnionMemberInfo TypeInfo) → Text
  | [] => []
  | (name, ⟨_, schema⟩) :: members =>
      "/".toList ++ name ++ "/".toList ++ getUrlTypeTemplate schema ++ membersTemplate members
end

/-- The replacement for a match of the marker between `pre` and `suf`: the `$` sequences of
the format are expanded.  The expression has no groups but the whole match. -/
def expandFormat (pre suf : Text) : Text → Text
  | [] => []
  | [c] => [c]
  | c :: d :: format =>
      if c ≠ '$' then c :: expandFormat pre suf (d :: format)
      else if d = '$' then '$' :: expandFormat pre suf format
      else if d = '&' then accountMarker ++ expandFormat pre suf format
      else if d = '\x60' then pre ++ expandFormat pre suf format
      else if d = '\x27' then suf ++ expandFormat pre suf format
      else if d.isDigit then
        match format with
        | [] => if d = '0' then accountMarker else []
        | e :: format =>
            -- the number of a group has one or two digits
            if e.isDigit then
              (if d = '0' ∧ e = '0' then accountMarker else []) ++ expandFormat pre suf format
            else (if d = '0' then accountMarker else []) ++ expandFormat pre suf (e :: format)
      else '$' :: expandFormat pre suf (d :: format)

/-- The scan of `std::regex_replace` for the marker: `skip` characters still belong to a match,
and `pre` is what was passed since the last one. -/
def replaceMarkers (format : Text) : ℕ → Text → Text → Text
  | _, pre, [] => pre
  | skip + 1, pre, _ :: text => replaceMarkers format skip pre text
  | 0, pre, c :: text =>
      if accountMarker.isPrefixOf (c :: text) then
        pre ++ expandFormat pre ((c :: text).drop accountMarker.length) format ++
          replaceMarkers format (accountMarker.length - 1) [] text
      else replaceMarkers format 0 (pre ++ [c]) text

/-- `get_url_type_string_from_template`. -/
def getUrlTypeStringFromTemplate (apiUrl templateString : Text) : Except Thrown Text :=
  (getAccountName apiUrl).map fun account => replaceMarkers account 0 [] templateString

/-- `get_url_type_string`. -/
def getUrlTypeString (apiUrl : Text) (schema : TypeInfo) : Except Thrown Text :=
  getUrlTypeStringFromTemplate apiUrl (getUrlTypeTemplate schema)

/-! ## The parser -/

/-- `boost::tokenizer` with the separator `/`, which drops empty tokens. -/
def tokenize (text : Text) : List Text := (text.splitOn '/').filter (· ≠ [])

/-- `get_token`. -/
def getToken : Decoder Thrown Text Text
  | [] => .error (.message "missing type components".toList)
  | token :: tokens => .ok (token, tokens)

/-- `lexical_cast<size_t>`: digits after an optional sign.  A number with a minus sign is
taken modulo the size of `size_t`. -/
def lexicalCastSize (token : Text) : Except Thrown ℕ :=
  let negative := token.head? = some '-'
  let digits := if negative ∨ token.head? = some '+' then token.tail else token
  let n := Nat.ofDigitChars 10 digits 0
  if digits ≠ [] ∧ digits.all Char.isDigit ∧ n < 2 ^ 64 then
    .ok (if negative then (2 ^ 64 - n) % 2 ^ 64 else n)
  else .error .badLexicalCast

/-- The chain of tests for the type code. -/
def parsePayload (parseNested : Decoder Thrown Text TypeInfo) (typeCode : Text) :
    Decoder Thrown Text TypeInfo :=
  if typeCode = "array".toList then do
    let elementSchema ← parseNested
    return .array elementSchema none
  else if typeCode = "blob".toList then return .blob
  else if typeCode = "boolean".toList then return .boolean
  else if typeCode = "datetime".toList then return .datetime
  else if typeCode = "dynamic".toList then return .dynamic
  else if typeCode = "enum".toList then do
    let token ← getToken
    let nValues ← liftM (lexicalCastSize token)
    let values ← Decoder.times (do
      let name ← getToken
      return (name, ⟨[]⟩)) nValues
    return .enum (Assoc.ofEntries values)
  else if typeCode = "float".toList then return .float
  else if typeCode = "integer".toList then return .integer
  else if typeCode = "map".toList then do
    let keySchema ← parseNested
    let valueSchema ← parseNested
    return .map keySchema valueSchema
  else if typeCode = "named".toList then do
    let account ← getToken
    let app ← getToken
    let name ← getToken
    return .named (some account) app name
  else if typeCode = "nil".toList then return .nil
  else if typeCode = "optional".toList then do
    let schema ← parseNested
    return .optional schema
  else if typeCode = "reference".toList then do
    let schema ← parseNested
    return .reference schema
  else if typeCode = "string".toList then return .string
  else if typeCode = "structure".toList then do
    let token ← getToken
    let nFields ← liftM (lexicalCastSize token)
    let fields ← Decoder.times (do
      let name ← getToken
      let schema ← parseNested
      return (name, ⟨[], none, schema⟩)) nFields
    return .structure (Assoc.ofEntries fields)
  else if typeCode = "union".toList then do
    let token ← getToken
    let nMembers ← liftM (lexicalCastSize token)
    let members ← Decoder.times (do
      let name ← getToken
      let schema ← parseNested
      return (name, ⟨[], schema⟩)) nMembers
    return .union (Assoc.ofEntries members)
  else throw (.string ("unrecognized type code: ".toList ++ typeCode))

/-- `parse_url_type`, with as many nested calls as there is fuel for. -/
def parseUrlType : ℕ → Decoder Thrown Text TypeInfo
  | 0 => throw (.message "missing type components".toList)
  | fuel + 1 => do
      let typeCode ← getToken
      parsePayload (parseUrlType fuel) typeCode

/-- `parse_url_type_string`.  Every nested call takes a token first, so the fuel is used up
only where no token is left and `get_token` throws anyway. -/
def parseUrlTypeString (urlType : Text) : Except Thrown TypeInfo :=
  let tokens := tokenize urlType
  let parsed : Except Thrown TypeInfo :=
    match (parseUrlType tokens.length).run tokens with
    | .ok (type, []) => .ok type
    | .ok (_, _ :: _) => .error (.message "extra type components".toList)
    | .error e => .error e
  match parsed with
  | .error (.message what) =>
      .error (.parsingError "Thinknode-style URL type string".toList what urlType)
  | result => result

/-! ## Components -/

/-- Each component with a slash in front. -/
def slashed (components : List Text) : Text := components.flatMap ('/' :: ·)

@[simp] theorem slashed_nil : slashed [] = [] := rfl

@[simp] theorem slashed_cons (c : Text) (cs : List Text) :
    slashed (c :: cs) = '/' :: (c ++ slashed cs) := rfl

@[simp] theorem slashed_append (cs ds : List Text) :
    slashed (cs ++ ds) = slashed cs ++ slashed ds := List.flatMap_append

theorem tokenize_append_slash (s t : Text) : tokenize (s ++ '/' :: t) = tokenize s ++ tokenize t := by
  rw [tokenize, List.splitOn_append_cons_self, List.filter_append]
  rfl

theorem tokenize_slash (t : Text) : tokenize ('/' :: t) = tokenize t :=
  tokenize_append_slash [] t

theorem tokenize_component {c : Text} (hne : c ≠ []) (hc : '/' ∉ c) : tokenize c = [c] := by
  simp [tokenize, List.splitOn_eq_singleton hc, hne]

theorem tokenize_slashed {cs : List Text} (h : ∀ c ∈ cs, c ≠ [] ∧ '/' ∉ c) :
    tokenize (slashed cs) = cs := by
  induction cs with
  | nil => rfl
  | cons c cs ih =>
      obtain ⟨⟨hne, hc⟩, hcs⟩ := List.forall_mem_cons.mp h
      rw [slashed_cons, tokenize_slash]
      cases cs with
      | nil => rw [slashed_nil, List.append_nil, tokenize_component hne hc]
      | cons d ds =>
          have hrest := ih hcs
          rw [slashed_cons, tokenize_slash] at hrest
          rw [slashed_cons, tokenize_append_slash, tokenize_component hne hc, hrest,
            List.singleton_append]

namespace TypeInfo

mutual
/-- The components of a schema, with an account for the named types without one. -/
def components (account : Text) : TypeInfo → List Text
  | .array elementSchema _ => "array".toList :: elementSchema.components account
  | .blob => ["blob".toList]
  | .boolean => ["boolean".toList]
  | .datetime => ["datetime".toList]
  | .dynamic => ["dynamic".toList]
  | .enum values => "enum".toList :: Nat.toDigits 10 values.length :: values.map Prod.fst
  | .float => ["float".toList]
  | .integer => ["integer".toList]
  | .map keySchema valueSchema =>
      "map".toList :: (keySchema.components account ++ valueSchema.components account)
  | .named own app name => ["named".toList, own.getD account, app, name]
  | .nil => ["nil".toList]
  | .optional schema => "optional".toList :: schema.components account
  | .reference schema => "reference".toList :: schema.components account
  | .string => ["string".toList]
  | .structure fields =>
      "structure".toList :: Nat.toDigits 10 fields.length :: fieldsComponents account fields
  | .union members =>
      "union".toList :: Nat.toDigits 10 members.length :: membersComponents account members
def fieldsComponents (account : Text) : List (Text × StructureFieldInfo TypeInfo) → List Text
  | [] => []
  | (name, ⟨_, _, schema⟩) :: fields =>
      name :: (schema.components account ++ fieldsComponents account fields)
def membersComponents (account : Text) : List (Text × UnionMemberInfo TypeInfo) → List Text
  | [] => []
  | (name, ⟨_, schema⟩) :: members =>
      name :: (schema.components account ++ membersComponents account members)
end

mutual
/-- What the format carries of a schema. -/
def normalize (account : Text) : TypeInfo → TypeInfo
  | .array elementSchema _ => .array (elementSchema.normalize account) none
  | .enum values => .enum (values.map fun v => (v.1, ⟨[]⟩))
  | .map keySchema valueSchema =>
      .map (keySchema.normalize account) (valueSchema.normalize account)
  | .named own app name => .named (some (own.getD account)) app name
  | .optional schema => .optional (schema.normalize account)
  | .reference schema => .reference (schema.normalize account)
  | .structure fields => .structure (normalizeFields account fields)
  | .union members => .union (normalizeMembers account members)
  | .blob => .blob
  | .boolean => .boolean
  | .datetime => .datetime
  | .dynamic => .dynamic
  | .float => .float
  | .integer => .integer
  | .nil => .nil
  | .string => .string
def normalizeFields (account : Text) :
    List (Text × StructureFieldInfo TypeInfo) → List (Text × StructureFieldInfo TypeInfo)
  | [] => []
  | (name, ⟨_, _, schema⟩) :: fields =>
      (name, ⟨[], none, schema.normalize account⟩) :: normalizeFields account fields
def normalizeMembers (account : Text) :
    List (Text × UnionMemberInfo TypeInfo) → List (Text × UnionMemberInfo TypeInfo)
  | [] => []
  | (name, ⟨_, schema⟩) :: members =>
      (name, ⟨[], schema.normalize account⟩) :: normalizeMembers account members
end

end TypeInfo

/-- A non-empty string of letters, digits, `-` and `_`. -/
def IsName (s : Text) : Prop := s ≠ [] ∧ ∀ c ∈ s, c.isAlphanum ∨ c = '-' ∨ c = '_'

instance (s : Text) : Decidable (IsName s) :=
  @instDecidableAnd _ _ _ (List.decidableBAll (fun c => c.isAlphanum ∨ c = '-' ∨ c = '_') s)

/-- All names are names, and the maps are maps of a size that a `size_t` holds. -/
inductive TypeInfo.WellFormed : TypeInfo → Prop
  | array {t size} : t.WellFormed → WellFormed (.array t size)
  | blob : WellFormed .blob
  | boolean : WellFormed .boolean
  | datetime : WellFormed .datetime
  | dynamic : WellFormed .dynamic
  | enum {values} : (∀ v ∈ values, IsName v.1) → Assoc.Sorted values →
      values.length < 2 ^ 64 → WellFormed (.enum values)
  | float : WellFormed .float
  | integer : WellFormed .integer
  | map {k v} : k.WellFormed → v.WellFormed → WellFormed (.map k v)
  | named {account app name} : (∀ a ∈ account, IsName a) → IsName app → IsName name →
      WellFormed (.named account app name)
  | nil : WellFormed .nil
  | optional {t} : t.WellFormed → WellFormed (.optional t)
  | reference {t} : t.WellFormed → WellFormed (.reference t)
  | string : WellFormed .string
  | structure {fields} : (∀ f ∈ fields, IsName f.1) → (∀ f ∈ fields, f.2.schema.WellFormed) →
      Assoc.Sorted fields → fields.length < 2 ^ 64 → WellFormed (.structure fields)
  | union {members} : (∀ m ∈ members, IsName m.1) → (∀ m ∈ members, m.2.schema.WellFormed) →
      Assoc.Sorted members → members.length < 2 ^ 64 → WellFormed (.union members)

/-! ## The printed template -/

theorem IsName.not_mem {s : Text} (h : IsName s) {c : Char}
    (hc : (c.isAlphanum || c = '-' || c = '_') = false) : c ∉ s := by
  intro hmem
  have hname := h.2 c hmem
  simp_all

/-- Two components with their slashes, as the loops write them. -/
theorem slashes_append {name text rest : Text} :
    "/".toList ++ name ++ "/".toList ++ text ++ rest =
      '/' :: (name ++ ('/' :: text ++ rest)) := by
  simp

theorem fieldsTemplate_eq {fields : List (Text × StructureFieldInfo TypeInfo)}
    (h : ∀ f ∈ fields, '/' :: getUrlTypeTemplate f.2.schema =
      slashed (f.2.schema.components accountMarker)) :
    fieldsTemplate fields = slashed (TypeInfo.fieldsComponents accountMarker fields) := by
  induction fields with
  | nil => rfl
  | cons f fields ih =>
      obtain ⟨hf, hfs⟩ := List.forall_mem_cons.mp h
      calc fieldsTemplate (f :: fields)
        _ = "/".toList ++ f.1 ++ "/".toList ++ getUrlTypeTemplate f.2.schema ++
              fieldsTemplate fields := rfl
        _ = '/' :: (f.1 ++ (slashed (f.2.schema.components accountMarker) ++
              slashed (TypeInfo.fieldsComponents accountMarker fields))) := by
            rw [slashes_append, hf, ih hfs]
        _ = slashed (TypeInfo.fieldsComponents accountMarker (f :: fields)) := by
            rw [TypeInfo.fieldsComponents, slashed_cons, slashed_append]

theorem membersTemplate_eq {members : List (Text × UnionMemberInfo TypeInfo)}
    (h : ∀ m ∈ members, '/' :: getUrlTypeTemplate m.2.schema =
      slashed (m.2.schema.components accountMarker)) :
    membersTemplate members = slashed (TypeInfo.membersComponents accountMarker members) := by
  induction members with
  | nil => rfl
  | cons m members ih =>
      obtain ⟨hm, hms⟩ := List.forall_mem_cons.mp h
      calc membersTemplate (m :: members)
        _ = "/".toList ++ m.1 ++ "/".toList ++ getUrlTypeTemplate m.2.schema ++
              membersTemplate members := rfl
        _ = '/' :: (m.1 ++ (slashed (m.2.schema.components accountMarker) ++
              slashed (TypeInfo.membersComponents accountMarker members))) := by
            rw [slashes_append, hm, ih hms]
        _ = slashed (TypeInfo.membersComponents accountMarker (m :: members)) := by
            rw [TypeInfo.membersComponents, slashed_cons, slashed_append]

/-- With a slash in front, the template is its components with theirs. -/
theorem slash_getUrlTypeTemplate (t : TypeInfo) :
    '/' :: getUrlTypeTemplate t = slashed (t.components accountMarker) := by
  induction t with
  | array t size ih =>
      calc '/' :: getUrlTypeTemplate (.array t size)
        _ = '/' :: ("array".toList ++ '/' :: getUrlTypeTemplate t) := rfl
        _ = slashed ((TypeInfo.array t size).components accountMarker) := by rw [ih]; rfl
  | enum values =>
      calc '/' :: getUrlTypeTemplate (.enum values)
        _ = '/' :: ("enum".toList ++ '/' ::
              (Nat.toDigits 10 values.length ++ values.flatMap fun v => '/' :: v.1)) := rfl
        _ = slashed ((TypeInfo.enum values).components accountMarker) := by
            rw [TypeInfo.components, slashed_cons, slashed_cons, slashed, List.flatMap_map]
  | map k v ihk ihv =>
      calc '/' :: getUrlTypeTemplate (.map k v)
        _ = '/' :: ("map".toList ++ '/' ::
              (getUrlTypeTemplate k ++ "/".toList ++ getUrlTypeTemplate v)) := rfl
        _ = '/' :: ("map".toList ++ ('/' :: getUrlTypeTemplate k ++ '/' :: getUrlTypeTemplate v)) :=
            by simp
        _ = slashed ((TypeInfo.map k v).components accountMarker) := by
            rw [ihk, ihv, TypeInfo.components, slashed_cons, slashed_append]
  | named account app name =>
      calc '/' :: getUrlTypeTemplate (.named account app name)
        _ = '/' :: ("named".toList ++ '/' :: (account.getD accountMarker ++ "/".toList ++ app ++
              "/".toList ++ name)) := rfl
        _ = slashed ((TypeInfo.named account app name).components accountMarker) := by
            simp [TypeInfo.components]
  | optional t ih =>
      calc '/' :: getUrlTypeTemplate (.optional t)
        _ = '/' :: ("optional".toList ++ '/' :: getUrlTypeTemplate t) := rfl
        _ = slashed ((TypeInfo.optional t).components accountMarker) := by rw [ih]; rfl
  | reference t ih =>
      calc '/' :: getUrlTypeTemplate (.reference t)
        _ = '/' :: ("reference".toList ++ '/' :: getUrlTypeTemplate t) := rfl
        _ = slashed ((TypeInfo.reference t).components accountMarker) := by rw [ih]; rfl
  | structure' fields ih =>
      calc '/' :: getUrlTypeTemplate (.structure fields)
        _ = '/' :: ("structure".toList ++ '/' ::
              (Nat.toDigits 10 fields.length ++ fieldsTemplate fields)) := rfl
        _ = slashed ((TypeInfo.structure fields).components accountMarker) := by
            rw [fieldsTemplate_eq ih]; rfl
  | union members ih =>
      calc '/' :: getUrlTypeTemplate (.union members)
        _ = '/' :: ("union".toList ++ '/' ::
              (Nat.toDigits 10 members.length ++ membersTemplate members)) := rfl
        _ = slashed ((TypeInfo.union members).components accountMarker) := by
            rw [membersTemplate_eq ih]; rfl
  | _ => rfl

/-! ## The replaced account -/

theorem expandFormat_of_not_mem {format : Text} (h : '$' ∉ format) (pre suf : Text) :
    expandFormat pre suf format = format := by
  induction format with
  | nil => rfl
  | cons c format ih =>
      obtain ⟨hc, hformat⟩ := not_or.mp (mt List.mem_cons.mpr h)
      cases format with
      | nil => rfl
      | cons d format =>
          have hstep : expandFormat pre suf (c :: d :: format) =
              c :: expandFormat pre suf (d :: format) := by
            rw [expandFormat.eq_def]
            exact if_pos (Ne.symm hc)
          rw [hstep, ih hformat]

/-- What has no brace in it is passed. -/
theorem replaceMarkers_append {s : Text} (h : '{' ∉ s) (format pre rest : Text) :
    replaceMarkers format 0 pre (s ++ rest) = replaceMarkers format 0 (pre ++ s) rest := by
  induction s generalizing pre with
  | nil => simp
  | cons c s ih =>
      obtain ⟨hc, hs⟩ := not_or.mp (mt List.mem_cons.mpr h)
      have hmarker : accountMarker = '{' :: "account\x7d".toList := rfl
      have hprefix : accountMarker.isPrefixOf (c :: (s ++ rest)) = false := by
        rw [hmarker, List.isPrefixOf_cons_cons, beq_eq_false_iff_ne.mpr hc, Bool.false_and]
      rw [List.cons_append, replaceMarkers, hprefix, if_neg Bool.false_ne_true, ih hs,
        List.append_assoc, List.singleton_append]

/-- The rest of a match is dropped. -/
theorem replaceMarkers_skip (format s pre rest : Text) :
    replaceMarkers format s.length pre (s ++ rest) = replaceMarkers format 0 pre rest := by
  induction s with
  | nil => rfl
  | cons c s ih => rw [List.length_cons, List.cons_append, replaceMarkers, ih]

/-- A marker is replaced by the account. -/
theorem replaceMarkers_marker {format : Text} (h : '$' ∉ format) (pre rest : Text) :
    replaceMarkers format 0 pre (accountMarker ++ rest) =
      pre ++ format ++ replaceMarkers format 0 [] rest := by
  have hmarker : accountMarker ++ rest = '{' :: ("account\x7d".toList ++ rest) := rfl
  have hprefix : accountMarker.isPrefixOf ('{' :: ("account\x7d".toList ++ rest)) = true := rfl
  rw [hmarker, replaceMarkers, if_pos hprefix, expandFormat_of_not_mem h]
  exact congrArg (pre ++ format ++ ·) (replaceMarkers_skip format "account\x7d".toList [] rest)

/-- Without `$` sequences, the text passed only comes in front. -/
theorem replaceMarkers_pre {format : Text} (h : '$' ∉ format) (skip : ℕ) (pre text : Text) :
    replaceMarkers format skip pre text = pre ++ replaceMarkers format skip [] text := by
  induction text generalizing skip pre with
  | nil => simp [replaceMarkers]
  | cons c text ih =>
      cases skip with
      | succ skip => rw [replaceMarkers, replaceMarkers, ih]
      | zero =>
          rw [replaceMarkers, replaceMarkers]
          split
          · simp [expandFormat_of_not_mem h]
          · rw [ih, ih 0 ([] ++ [c])]
            simp

/-- The second is the first, with the account in the place of a marker. -/
def Replaced (account c c' : Text) : Prop := (c = accountMarker ∧ c' = account) ∨ (c = c' ∧ '{' ∉ c)

theorem replaceMarkers_slashed {account : Text} (h : '$' ∉ account) {cs cs' : List Text}
    (hcs : List.Forall₂ (Replaced account) cs cs') :
    replaceMarkers account 0 [] (slashed cs) = slashed cs' := by
  induction hcs with
  | nil => rfl
  | @cons c c' cs cs' hc _ ih =>
      have hslash : '{' ∉ ['/'] := by decide
      rw [slashed_cons, slashed_cons, ← List.singleton_append,
        replaceMarkers_append hslash, replaceMarkers_pre h]
      rcases hc with ⟨rfl, rfl⟩ | ⟨rfl, hc⟩
      · rw [replaceMarkers_marker h, ih]
        simp
      · rw [replaceMarkers_append hc, replaceMarkers_pre h, ih]
        simp

/-! ## Reading the components -/

theorem IsName.slash_not_mem {s : Text} (h : IsName s) : '/' ∉ s := h.not_mem (by decide)

theorem readsBack_getToken (token : Text) : getToken.ReadsBack [token] token := fun _ => rfl

theorem lexicalCastSize_toDigits {n : ℕ} (h : n < 2 ^ 64) :
    lexicalCastSize (Nat.toDigits 10 n) = .ok n := by
  have hdigit : ∀ c ∈ Nat.toDigits 10 n, c.isDigit :=
    fun c hc => Nat.isDigit_of_mem_toDigits (by decide) (by decide) hc
  have hsign : ∀ sign : Char, sign.isDigit = false → (Nat.toDigits 10 n).head? ≠ some sign := by
    intro sign hsign hhead
    have hmem := hdigit sign (List.mem_of_head? hhead)
    rw [hsign] at hmem
    exact Bool.false_ne_true hmem
  have hdigits : (Nat.toDigits 10 n).all Char.isDigit = true := List.all_eq_true.mpr hdigit
  simp only [lexicalCastSize, hsign '-' rfl, hsign '+' rfl, or_self, if_false,
    Nat.ofDigitChars_ten_toDigits]
  exact if_pos ⟨Nat.toDigits_ne_nil, hdigits, h⟩

/-- A count is read back. -/
theorem readsBack_count {α : Type} {n : ℕ} (h : n < 2 ^ 64) {d : ℕ → Decoder Thrown Text α}
    {out : List Text} {x : α} (hd : (d n).ReadsBack out x) :
    Decoder.ReadsBack (do
      let token ← getToken
      let n ← liftM (lexicalCastSize token)
      d n) (Nat.toDigits 10 n :: out) x := by
  have hcount : Decoder.ReadsBack (do
      let n ← (liftM (lexicalCastSize (Nat.toDigits 10 n)) : Decoder Thrown Text ℕ)
      d n) out x := (Decoder.ReadsBack.lift (lexicalCastSize_toDigits h)).bind hd
  exact (readsBack_getToken (Nat.toDigits 10 n)).bind hcount

/-- The type code is taken, then the branch of that code reads the rest. -/
theorem readsBack_typeCode {code : Text} {out : List Text} {t : TypeInfo} {fuel : ℕ}
    (hfuel : (code :: out).length ≤ fuel)
    (h : ∀ fuel, out.length ≤ fuel → (parsePayload (parseUrlType fuel) code).ReadsBack out t) :
    (parseUrlType fuel).ReadsBack (code :: out) t := by
  cases fuel with
  | zero => simp at hfuel
  | succ fuel =>
      have hout : out.length ≤ fuel := by simpa using hfuel
      exact (readsBack_getToken code).bind (h fuel hout)

theorem readsBack_values (values : List (Text × EnumValueInfo)) :
    Decoder.ReadsBack (Decoder.times (do
      let name ← getToken
      return (name, (⟨[]⟩ : EnumValueInfo))) values.length)
      (values.map Prod.fst) (values.map fun v => (v.1, ⟨[]⟩)) := by
  induction values with
  | nil => exact .pure []
  | cons v values ih =>
      exact ((readsBack_getToken v.1).map fun name => (name, (⟨[]⟩ : EnumValueInfo))).bind
        (ih.map fun vs => (v.1, ⟨[]⟩) :: vs)

/-- A field or a member: a name, and a schema that the constructor of the entry is given. -/
theorem readsBack_entry {ι : Type} (mk : TypeInfo → ι) {parse : Decoder Thrown Text TypeInfo}
    (name : Text) {out : List Text} {t : TypeInfo} (h : parse.ReadsBack out t) :
    Decoder.ReadsBack (do
      let name ← getToken
      let schema ← parse
      return (name, mk schema)) (name :: out) (name, mk t) :=
  (readsBack_getToken name).bind (h.map fun schema => (name, mk schema))

theorem readsBack_fields {account : Text} {fuel : ℕ}
    {fields : List (Text × StructureFieldInfo TypeInfo)}
    (h : ∀ f ∈ fields, (f.2.schema.components account).length ≤ fuel →
      (parseUrlType fuel).ReadsBack (f.2.schema.components account) (f.2.schema.normalize account))
    (hfuel : (TypeInfo.fieldsComponents account fields).length ≤ fuel) :
    Decoder.ReadsBack (Decoder.times (do
      let name ← getToken
      let schema ← parseUrlType fuel
      return (name, (⟨[], none, schema⟩ : StructureFieldInfo TypeInfo))) fields.length)
      (TypeInfo.fieldsComponents account fields) (TypeInfo.normalizeFields account fields) := by
  induction fields with
  | nil => exact .pure []
  | cons f fields ih =>
      obtain ⟨name, description, omissible, schema⟩ := f
      obtain ⟨hf, hfs⟩ := List.forall_mem_cons.mp h
      simp only [TypeInfo.fieldsComponents, List.length_cons, List.length_append] at hfuel
      have hschema := hf (by dsimp only; omega)
      exact (readsBack_entry (StructureFieldInfo.mk [] none) name hschema).bind
        ((ih hfs (by omega)).map (_ :: ·))

theorem readsBack_members {account : Text} {fuel : ℕ}
    {members : List (Text × UnionMemberInfo TypeInfo)}
    (h : ∀ m ∈ members, (m.2.schema.components account).length ≤ fuel →
      (parseUrlType fuel).ReadsBack (m.2.schema.components account) (m.2.schema.normalize account))
    (hfuel : (TypeInfo.membersComponents account members).length ≤ fuel) :
    Decoder.ReadsBack (Decoder.times (do
      let name ← getToken
      let schema ← parseUrlType fuel
      return (name, (⟨[], schema⟩ : UnionMemberInfo TypeInfo))) members.length)
      (TypeInfo.membersComponents account members) (TypeInfo.normalizeMembers account members) := by
  induction members with
  | nil => exact .pure []
  | cons m members ih =>
      obtain ⟨name, description, schema⟩ := m
      obtain ⟨hm, hms⟩ := List.forall_mem_cons.mp h
      simp only [TypeInfo.membersComponents, List.length_cons, List.length_append] at hfuel
      have hschema := hm (by dsimp only; omega)
      exact (readsBack_entry (UnionMemberInfo.mk []) name hschema).bind
        ((ih hms (by omega)).map (_ :: ·))

namespace TypeInfo

theorem normalizeFields_keys (account : Text)
    (fields : List (Text × StructureFieldInfo TypeInfo)) :
    (normalizeFields account fields).map Prod.fst = fields.map Prod.fst := by
  induction fields with
  | nil => rfl
  | cons f fields ih => rw [normalizeFields, List.map_cons, List.map_cons, ih]

theorem normalizeMembers_keys (account : Text)
    (members : List (Text × UnionMemberInfo TypeInfo)) :
    (normalizeMembers account members).map Prod.fst = members.map Prod.fst := by
  induction members with
  | nil => rfl
  | cons m members ih => rw [normalizeMembers, List.map_cons, List.map_cons, ih]

end TypeInfo

/-- Entries with the keys of a map are assigned in their order. -/
theorem ofEntries_of_keys {α β : Type} {xs : List (Text × α)} {ys : List (Text × β)}
    (hkeys : ys.map Prod.fst = xs.map Prod.fst) (h : Assoc.Sorted xs) :
    Assoc.ofEntries ys = ys := by
  have hsorted : Assoc.Sorted ys := by
    rw [Assoc.sorted_iff_keys, hkeys]
    exact Assoc.sorted_iff_keys.mp h
  exact Assoc.ofEntries_of_sorted hsorted

/-- With as much fuel as there are components, the parser reads the components of a schema,
whatever follows them. -/
theorem readsBack_parseUrlType {t : TypeInfo} (h : t.WellFormed) (account : Text) {fuel : ℕ}
    (hfuel : (t.components account).length ≤ fuel) :
    (parseUrlType fuel).ReadsBack (t.components account) (t.normalize account) := by
  induction h generalizing fuel with
  | array _ ih => exact readsBack_typeCode hfuel fun f hf => (ih hf).map (TypeInfo.array · none)
  | @enum values _ sorted limit =>
      refine readsBack_typeCode hfuel fun f hf => readsBack_count limit ?_
      have hvalues := (readsBack_values values).map fun values => TypeInfo.enum (Assoc.ofEntries values)
      rwa [ofEntries_of_keys (by simp) sorted] at hvalues
  | @map k v _ _ ihk ihv =>
      refine readsBack_typeCode hfuel fun f hf => ?_
      rw [List.length_append] at hf
      exact (ihk (by omega)).bind ((ihv (by omega)).map (TypeInfo.map _))
  | @named own app name _ _ _ =>
      refine readsBack_typeCode hfuel fun f hf => ?_
      exact (readsBack_getToken _).bind ((readsBack_getToken _).bind
        ((readsBack_getToken _).map (TypeInfo.named _ _)))
  | optional _ ih => exact readsBack_typeCode hfuel fun f hf => (ih hf).map TypeInfo.optional
  | reference _ ih => exact readsBack_typeCode hfuel fun f hf => (ih hf).map TypeInfo.reference
  | @«structure» fields _ _ sorted limit ih =>
      refine readsBack_typeCode hfuel fun f hf => readsBack_count limit ?_
      have hle : (TypeInfo.fieldsComponents account fields).length ≤ f := by
        rw [List.length_cons] at hf
        omega
      have hfields := (readsBack_fields (fun g hg hle => ih g hg hle) hle).map
        fun fields => TypeInfo.structure (Assoc.ofEntries fields)
      rwa [ofEntries_of_keys (TypeInfo.normalizeFields_keys account fields) sorted] at hfields
  | @union members _ _ sorted limit ih =>
      refine readsBack_typeCode hfuel fun f hf => readsBack_count limit ?_
      have hle : (TypeInfo.membersComponents account members).length ≤ f := by
        rw [List.length_cons] at hf
        omega
      have hmembers := (readsBack_members (fun m hm hle => ih m hm hle) hle).map
        fun members => TypeInfo.union (Assoc.ofEntries members)
      rwa [ofEntries_of_keys (TypeInfo.normalizeMembers_keys account members) sorted] at hmembers
  | _ => exact readsBack_typeCode hfuel fun f _ => .pure _

/-! ## The round trip -/

theorem isName_toDigits (n : ℕ) : IsName (Nat.toDigits 10 n) := by
  refine ⟨Nat.toDigits_ne_nil, fun c hc => .inl ?_⟩
  have hdigit := Nat.isDigit_of_mem_toDigits (by decide) (by decide) hc
  simp [Char.isAlphanum, hdigit]

section
variable {R : Text → Text → Prop} {a b : Text}

theorem forall₂_fieldsComponents (hself : ∀ c, IsName c → R c c)
    {fields : List (Text × StructureFieldInfo TypeInfo)} (hnames : ∀ f ∈ fields, IsName f.1)
    (h : ∀ f ∈ fields,
      List.Forall₂ R (f.2.schema.components a) (f.2.schema.components b)) :
    List.Forall₂ R (TypeInfo.fieldsComponents a fields) (TypeInfo.fieldsComponents b fields) := by
  induction fields with
  | nil => exact .nil
  | cons f fields ih =>
      obtain ⟨hname, hnames⟩ := List.forall_mem_cons.mp hnames
      obtain ⟨hf, hfs⟩ := List.forall_mem_cons.mp h
      exact .cons (hself _ hname) (List.rel_append hf (ih hnames hfs))

theorem forall₂_membersComponents (hself : ∀ c, IsName c → R c c)
    {members : List (Text × UnionMemberInfo TypeInfo)} (hnames : ∀ m ∈ members, IsName m.1)
    (h : ∀ m ∈ members,
      List.Forall₂ R (m.2.schema.components a) (m.2.schema.components b)) :
    List.Forall₂ R (TypeInfo.membersComponents a members)
      (TypeInfo.membersComponents b members) := by
  induction members with
  | nil => exact .nil
  | cons m members ih =>
      obtain ⟨hname, hnames⟩ := List.forall_mem_cons.mp hnames
      obtain ⟨hm, hms⟩ := List.forall_mem_cons.mp h
      exact .cons (hself _ hname) (List.rel_append hm (ih hnames hms))

/-- All components are spelled like names, the type codes and the counts included, apart from
what stands for the account. -/
theorem forall₂_components (hself : ∀ c, IsName c → R c c) (hab : R a b) {t : TypeInfo}
    (h : t.WellFormed) : List.Forall₂ R (t.components a) (t.components b) := by
  have hcount : ∀ n, R (Nat.toDigits 10 n) (Nat.toDigits 10 n) :=
    fun n => hself _ (isName_toDigits n)
  induction h with
  | array _ ih => exact .cons (hself _ (by decide)) ih
  | enum hnames _ _ =>
      refine .cons (hself _ (by decide)) (.cons (hcount _) (List.forall₂_same.mpr ?_))
      exact List.forall_mem_map.mpr fun v hv => hself _ (hnames v hv)
  | map _ _ ihk ihv => exact .cons (hself _ (by decide)) (List.rel_append ihk ihv)
  | @named own app name hown happ hname =>
      have hown : R (own.getD a) (own.getD b) := by
        cases own with
        | none => exact hab
        | some own => exact hself own (hown own rfl)
      exact .cons (hself _ (by decide)) (.cons hown (.cons (hself _ happ)
        (.cons (hself _ hname) .nil)))
  | optional _ ih => exact .cons (hself _ (by decide)) ih
  | reference _ ih => exact .cons (hself _ (by decide)) ih
  | @«structure» fields hnames _ _ _ ih =>
      exact .cons (hself _ (by decide)) (.cons (hcount _) (forall₂_fieldsComponents hself hnames ih))
  | @union members hnames _ _ _ ih =>
      exact .cons (hself _ (by decide))
        (.cons (hcount _) (forall₂_membersComponents hself hnames ih))
  | _ => exact .cons (hself _ (by decide)) .nil

end

/-- The printed string is the components with the account in its place. -/
theorem getUrlTypeString_eq {apiUrl account : Text} (hurl : getAccountName apiUrl = .ok account)
    (haccount : IsName account) {t : TypeInfo} (h : t.WellFormed) :
    ∃ text, getUrlTypeString apiUrl t = .ok text ∧
      '/' :: text = slashed (t.components account) := by
  have hdollar : '$' ∉ account := haccount.not_mem (by decide)
  have hcs := forall₂_components (R := Replaced account)
    (fun c hc => .inr ⟨rfl, hc.not_mem (by decide)⟩) (.inl ⟨rfl, rfl⟩) h
  refine ⟨replaceMarkers account 0 [] (getUrlTypeTemplate t), ?_, ?_⟩
  · rw [getUrlTypeString, getUrlTypeStringFromTemplate, hurl]
    rfl
  · have hslash : '{' ∉ ['/'] := by decide
    calc '/' :: replaceMarkers account 0 [] (getUrlTypeTemplate t)
      _ = replaceMarkers account 0 [] (['/'] ++ getUrlTypeTemplate t) := by
          rw [replaceMarkers_append hslash, replaceMarkers_pre hdollar 0 ([] ++ ['/'])]
          rfl
      _ = slashed (t.components account) := by
          rw [List.singleton_append, slash_getUrlTypeTemplate, replaceMarkers_slashed hdollar hcs]

/-- A schema printed for a URL is parsed back, up to what the format does not carry. -/
theorem parseUrlTypeString_getUrlTypeString {apiUrl account : Text}
    (hurl : getAccountName apiUrl = .ok account) (haccount : IsName account) {t : TypeInfo}
    (h : t.WellFormed) :
    (getUrlTypeString apiUrl t).bind parseUrlTypeString = .ok (t.normalize account) := by
  obtain ⟨text, htext, hslash⟩ := getUrlTypeString_eq hurl haccount h
  have hcs : List.Forall₂ (fun c _ => c ≠ [] ∧ '/' ∉ c) (t.components account)
      (t.components account) :=
    forall₂_components (fun c hc => ⟨hc.1, hc.slash_not_mem⟩)
      ⟨haccount.1, haccount.slash_not_mem⟩ h
  have htokens : tokenize text = t.components account := by
    rw [← tokenize_slash, hslash, tokenize_slashed (List.forall₂_same.mp hcs)]
  have hread := (readsBack_parseUrlType h account (Nat.le_refl _)).run_eq
  rw [htext]
  show parseUrlTypeString text = .ok (t.normalize account)
  rw [parseUrlTypeString, htokens, hread]

/-- A named type without an account whose name is spelled like a type code, in a field that
may be left out. -/
def exampleSchema : TypeInfo :=
  .structure [("array".toList, ⟨"an array".toList, some true,
    .array (.named none "my-app".toList "enum".toList) (some 3)⟩)]

theorem parseUrlTypeString_exampleSchema :
    (getUrlTypeString "https://mgh.thinknode.io/api/v1.0".toList exampleSchema).bind
      parseUrlTypeString =
    .ok (.structure [("array".toList, ⟨[], none,
      .array (.named (some "mgh".toList) "my-app".toList "enum".toList) none⟩)]) := by
  have hurl : getAccountName "https://mgh.thinknode.io/api/v1.0".toList = .ok "mgh".toList := rfl
  have hwell : exampleSchema.WellFormed := by
    refine .structure ?_ ?_ ?_ (by decide)
    · exact List.forall_mem_singleton.mpr (by decide)
    · exact List.forall_mem_singleton.mpr
        (.array (.named (by simp) (by decide) (by decide)))
    · exact List.pairwise_singleton _ _
  exact parseUrlTypeString_getUrlTypeString hurl (by decide) hwell

end Cradle.Thinknode
