import Cradle.Resolve.Backoff
import Cradle.Resolve.Containment
import Cradle.Resolve.RequestUuid
import Cradle.Resolve.SeriRegistry

/-!
# Requests as documents

A request is saved in two formats, through cereal as JSON and as a MessagePack array.  Both
have the same five parts: uuid, retrier state, introspection state, arguments and
containment data.  What is not saved is the class of the request and its function: these
are found in the registry, under the uuid.

A proxy request has no function, and saves the same parts; its uuid has a mark that is
taken off where the request is loaded.

The texts that cereal and MessagePack make of their documents are left out, and so are
those of plain values: `W` are the documents of values, which are read by their C++ type.
-/

namespace Cradle.Resolve

open Registry

/-! ## Requests -/

/-- A `function_request` instantiation; its retrier is `no_retrier` or another class. -/
structure ObjectType (T : Type) where
  valueType : T
  retrier : Option RetrierType := none
  deriving DecidableEq

/-- The C++ type of an argument. -/
inductive ArgType (T : Type)
  | value (t : T)
  | request (obj : ObjectType T)
  deriving DecidableEq

/-- A `function_request_impl` instantiation. -/
structure ImplClass (T : Type) extends ImplType T where
  args : List (ArgType T)
  deriving DecidableEq

/-- What a request holds beside its function and its arguments. -/
structure RequestData where
  uuid : RequestUuid
  retrier : Option Retrier := none
  title : Option (List Char) := none
  containment : Option ContainmentData := none

/-- A `function_request` or a `proxy_request`, or a plain value as an argument of one. -/
inductive SeriRequest (T V F : Type)
  | value (v : V)
  | function (impl : ImplClass T) (f : F) (data : RequestData) (args : List (SeriRequest T V F))
  | proxy (data : RequestData) (args : List (SeriRequest T V F))

/-- A uuid after `str()`, as it is loaded. -/
def RequestUuid.complete (u : RequestUuid) : RequestUuid := ofComplete u.str

def ContainmentData.complete (c : ContainmentData) : ContainmentData :=
  { c with plainUuid := c.plainUuid.complete }

def RequestData.complete (d : RequestData) : RequestData :=
  { d with uuid := d.uuid.complete, containment := d.containment.map ContainmentData.complete }

namespace SeriRequest
variable {T V F : Type}

mutual
/-- The same request, its uuids finalized. -/
def complete : SeriRequest T V F → SeriRequest T V F
  | value v => value v
  | function impl f data args => function impl f data.complete (completeArgs args)
  | proxy data args => proxy data.complete (completeArgs args)
def completeArgs : List (SeriRequest T V F) → List (SeriRequest T V F)
  | [] => []
  | x :: xs => x.complete :: completeArgs xs
end

/-- The class of a `function_request`. -/
def objectType (impl : ImplClass T) (data : RequestData) : ObjectType T :=
  { valueType := impl.valueType, retrier := data.retrier.map Retrier.type }

end SeriRequest

/-! ## The two formats -/

/-- What can go wrong when a request is loaded: `malformed` is cereal's exception or the
`type_error` of MessagePack, `badCast` an object that is taken for one of another class. -/
inductive LoadError
  | malformed
  | unregisteredUuid (e : UnregisteredUuidError)
  | badCast
  | badAnyCast
  | nullResolver
  | tooDeep
  deriving DecidableEq

/-- The parts of a saved request, the arguments being documents themselves. -/
structure Parts (D : Type) where
  uuid : List Char
  retrier : Option Retrier
  title : Option (List Char)
  args : List D
  containment : Option ContainmentData

/-- A format: how a request and a value are saved, and how the parts are loaded.  `depth`
bounds how deep documents are nested. -/
structure Archive (W D : Type) where
  saveValue : W → D
  saveRequest : Parts D → D
  loadValue : D → Except LoadError W
  uuid : D → Except LoadError (List Char)
  retrier : D → RetrierType → Except LoadError Retrier
  title : D → Except LoadError (List Char)
  arg : D → ℕ → Except LoadError D
  containment : D → Except LoadError (Option ContainmentData)
  depth : D → ℕ

/-! ### cereal -/

/-- The names that requests are saved under. -/
inductive Member
  | uuid
  | baseMillis
  | maxAttempts
  | title
  | args
  | tupleElement (i : ℕ)
  | plainUuid
  | dllDir
  | dllName
  deriving DecidableEq

inductive Json (W : Type)
  | text (s : List Char)
  | number (n : ℤ)
  | value (w : W)
  | object (members : List (Member × Json W))

namespace Json
variable {W : Type}

mutual
def depth : Json W → ℕ
  | object members => depthOfMembers members + 1
  | _ => 0
def depthOfMembers : List (Member × Json W) → ℕ
  | [] => 0
  | m :: ms => max (depthOfMember m) (depthOfMembers ms)
def depthOfMember : Member × Json W → ℕ
  | (_, doc) => depth doc
end

/-- A name is looked up among all members. -/
def get (doc : Json W) (name : Member) : Except LoadError (Json W) :=
  match doc with
  | object members => (members.lookup name).elim (.error .malformed) .ok
  | _ => .error .malformed

def getText (doc : Json W) (name : Member) : Except LoadError (List Char) := do
  match ← doc.get name with
  | text s => .ok s
  | _ => .error .malformed

def getNumber (doc : Json W) (name : Member) : Except LoadError ℤ := do
  match ← doc.get name with
  | number n => .ok n
  | _ => .error .malformed

end Json

section
variable {W : Type}

/-- `backoff_retrier_base::save_retrier_state`; `no_retrier` saves nothing. -/
def Retrier.saveMembers (r : Retrier) : List (Member × Json W) :=
  [(.baseMillis, .number r.baseMillis), (.maxAttempts, .number r.maxAttempts)]

/-- `containment_data::save` and `save_nothing`. -/
def ContainmentData.saveMembers : Option ContainmentData → List (Member × Json W)
  | some c => [(.plainUuid, .text c.plainUuid.str), (.dllDir, .text c.dllDir.toList),
      (.dllName, .text c.dllName.toList)]
  | none => [(.plainUuid, .text [])]

/-- A tuple, as cereal saves it. -/
def tupleElements : ℕ → List (Json W) → List (Member × Json W)
  | _, [] => []
  | i, x :: xs => (.tupleElement i, x) :: tupleElements (i + 1) xs

/-- `containment_data::load`. -/
def ContainmentData.loadMembers (doc : Json W) : Except LoadError (Option ContainmentData) := do
  let plainUuidStr ← doc.getText .plainUuid
  if plainUuidStr = [] then return none
  let dllDir ← doc.getText .dllDir
  let dllName ← doc.getText .dllName
  return some ⟨.ofComplete plainUuidStr, .ofList dllDir, .ofList dllName⟩

def cereal (W : Type) : Archive W (Json W) where
  saveValue := .value
  saveRequest p := .object (
    (.uuid, .text p.uuid)
      :: ((p.retrier.map Retrier.saveMembers).getD []
        ++ ((p.title.map fun s => [(Member.title, .text s)]).getD []
        ++ ((.args, .object (tupleElements 0 p.args))
          :: ContainmentData.saveMembers p.containment))))
  loadValue
    | .value w => .ok w
    | _ => .error .malformed
  uuid doc := doc.getText .uuid
  retrier doc type := do
    let baseMillis ← doc.getNumber .baseMillis
    let maxAttempts ← doc.getNumber .maxAttempts
    (Retrier.loadRetrierState type [baseMillis, maxAttempts]).elim (.error .malformed) .ok
  title doc := doc.getText .title
  arg doc i := do (← doc.get .args).get (.tupleElement i)
  containment := ContainmentData.loadMembers
  depth := Json.depth

end

/-! ### MessagePack -/

inductive MsgpackObject (W : Type)
  | nil
  | text (s : List Char)
  | int (n : ℤ)
  | value (w : W)
  | array (items : List (MsgpackObject W))

namespace MsgpackObject
variable {W : Type}

mutual
def depth : MsgpackObject W → ℕ
  | array items => depthOfItems items + 1
  | _ => 0
def depthOfItems : List (MsgpackObject W) → ℕ
  | [] => 0
  | x :: xs => max (depth x) (depthOfItems xs)
end

/-- `msgpack_unpack` wants an array of five. -/
def subobj (doc : MsgpackObject W) (i : Fin 5) : Except LoadError (MsgpackObject W) :=
  match doc with
  | array [a, b, c, d, e] => .ok ([a, b, c, d, e].get i)
  | _ => .error .malformed

def convertText : MsgpackObject W → Except LoadError (List Char)
  | text s => .ok s
  | _ => .error .malformed

def convertInt : MsgpackObject W → Except LoadError ℤ
  | int n => .ok n
  | _ => .error .malformed

end MsgpackObject

section
variable {W : Type}

/-- `save_retrier_state`, of `backoff_retrier_base` or of `no_retrier`. -/
def Retrier.saveObject : Option Retrier → MsgpackObject W
  | some r => .array (r.saveRetrierState.map .int)
  | none => .nil

def Retrier.loadObject (type : RetrierType) : MsgpackObject W → Except LoadError Retrier
  | .array [a, b] => do
      let baseMillis ← a.convertInt
      let maxAttempts ← b.convertInt
      (Retrier.loadRetrierState type [baseMillis, maxAttempts]).elim (.error .malformed) .ok
  | _ => .error .malformed

def ContainmentData.saveObject : Option ContainmentData → MsgpackObject W
  | some c => .array [.text c.plainUuid.str, .text c.dllDir.toList, .text c.dllName.toList]
  | none => .nil

def ContainmentData.loadObject :
    MsgpackObject W → Except LoadError (Option ContainmentData)
  | .nil => .ok none
  | .array [a, b, c] => do
      let plainUuidStr ← a.convertText
      let dllDir ← b.convertText
      let dllName ← c.convertText
      return some ⟨.ofComplete plainUuidStr, .ofList dllDir, .ofList dllName⟩
  | _ => .error .malformed

def msgpack (W : Type) : Archive W (MsgpackObject W) where
  saveValue := .value
  saveRequest p := .array [.text p.uuid, Retrier.saveObject p.retrier,
    (p.title.map .text).getD .nil, .array p.args, ContainmentData.saveObject p.containment]
  loadValue
    | .value w => .ok w
    | _ => .error .malformed
  uuid doc := do (← doc.subobj 0).convertText
  retrier doc type := do Retrier.loadObject type (← doc.subobj 1)
  title doc := do (← doc.subobj 2).convertText
  arg doc i := do
    match ← doc.subobj 3 with
    | .array items => (items[i]?).elim (.error .malformed) .ok
    | _ => .error .malformed
  containment doc := do ContainmentData.loadObject (← doc.subobj 4)
  depth := MsgpackObject.depth

end

/-! ## Saving and loading a request -/

section
variable {T V F W D : Type} (a : Archive W D)

section
variable (encode : V → W)

mutual
/-- `save` and `msgpack_pack`, of a request or of a value. -/
def Archive.save : SeriRequest T V F → D
  | .value v => a.saveValue (encode v)
  | .function _ _ data args => a.saveRequest
      { data with uuid := data.uuid.str, args := Archive.saveArgs args }
  | .proxy data args => a.saveRequest
      { data with uuid := data.uuid.str, args := Archive.saveArgs args }
def Archive.saveArgs : List (SeriRequest T V F) → List D
  | [] => []
  | x :: xs => Archive.save x :: Archive.saveArgs xs
end

end

variable [DecidableEq T] (registry : SeriRegistry (ObjectType T) (ImplClass T) F)
  (decode : T → W → Option V)

/-- The arguments of the given types, from the `i`th on. -/
def Archive.loadArgs (loadArg : ArgType T → D → Except LoadError (SeriRequest T V F)) (doc : D) :
    ℕ → List (ArgType T) → Except LoadError (List (SeriRequest T V F))
  | _, [] => .ok []
  | i, t :: ts => do
      let x ← loadArg t (← a.arg doc i)
      let xs ← Archive.loadArgs loadArg doc (i + 1) ts
      .ok (x :: xs)

/-- `load_retrier_state`; `no_retrier` has none. -/
def Archive.loadRetrierState (doc : D) : Option RetrierType → Except LoadError (Option Retrier)
  | some type => (a.retrier doc type).map some
  | none => .ok none

/-- `load_intrsp_state`. -/
def Archive.loadIntrspState (doc : D) (introspective : Bool) :
    Except LoadError (Option (List Char)) :=
  if introspective then (a.title doc).map some else .ok none

/-- `create_impl`: nothing checks that the object is of the class that is wanted. -/
def createImpl (obj : ObjectType T) (uuid : RequestUuid) :
    Except LoadError (Entry (ObjectType T) (ImplClass T) F) :=
  match registry.findEntry (String.ofList uuid.str) false with
  | .ok entry => if entry.create.valueType = obj.valueType then .ok entry else .error .badCast
  | .error e => .error (.unregisteredUuid e)

/-- `load` and `msgpack_unpack`: the registry creates an object of the class for the uuid,
and that object loads the rest of itself. -/
def Archive.load : ℕ → ArgType T → D → Except LoadError (SeriRequest T V F)
  | 0, _, _ => .error .tooDeep
  | _ + 1, .value t, doc => do
      let w ← a.loadValue doc
      (decode t w).elim (.error .malformed) fun v => .ok (.value v)
  | n + 1, .request obj, doc => do
      let uuid := (RequestUuid.loadWithName (← a.uuid doc)).deproxy
      let retrier ← a.loadRetrierState doc obj.retrier
      let entry ← createImpl registry obj uuid
      let title ← a.loadIntrspState doc entry.create.introspective
      let args ← Archive.loadArgs a (Archive.load n) doc 0 entry.create.args
      let containment ← a.containment doc
      entry.function.elim (.error .badAnyCast) fun f =>
        .ok (.function entry.create f { uuid, retrier, title, containment } args)

/-- A document of any depth. -/
def Archive.deserialize (t : ArgType T) (doc : D) : Except LoadError (SeriRequest T V F) :=
  a.load registry decode (a.depth doc + 1) t doc

end

/-! ## What the formats promise -/

section
variable {W D : Type}

/-- The document gives the parts back. -/
structure Archive.Presents (a : Archive W D) (doc : D) (p : Parts D) : Prop where
  uuid : a.uuid doc = .ok p.uuid
  retrier : ∀ r, p.retrier = some r → ∀ type, a.retrier doc type = .ok { r with type }
  title : ∀ s, p.title = some s → a.title doc = .ok s
  arg : ∀ (i : ℕ) d, p.args[i]? = some d → a.arg doc i = .ok d
  containment : a.containment doc = .ok (p.containment.map ContainmentData.complete)
  depth : ∀ d ∈ p.args, a.depth d < a.depth doc

/-- Containment data is told from none by its plain uuid, which is not empty. -/
def ContainmentData.Valid (c : Option ContainmentData) : Prop :=
  ∀ c' ∈ c, c'.plainUuid.str ≠ []

structure Archive.Lawful (a : Archive W D) : Prop where
  value : ∀ w, a.loadValue (a.saveValue w) = .ok w
  presents : ∀ p, ContainmentData.Valid p.containment → a.Presents (a.saveRequest p) p

theorem lookup_tupleElements (xs : List (Json W)) (i j : ℕ) :
    (tupleElements i xs).lookup (.tupleElement (i + j)) = xs[j]? := by
  induction xs generalizing i j with
  | nil => rfl
  | cons x xs ih =>
      cases j with
      | zero => simp [tupleElements]
      | succ j =>
          have hne : (Member.tupleElement (i + (j + 1)) == Member.tupleElement i) = false := by
            simp
          have hsucc : i + (j + 1) = i + 1 + j := by omega
          rw [tupleElements, List.lookup_cons, hne, List.getElem?_cons_succ, hsucc]
          exact ih (i + 1) j

theorem Json.depth_le_of_mem {m : Member × Json W} {ms : List (Member × Json W)} (h : m ∈ ms) :
    m.2.depth ≤ depthOfMembers ms := by
  induction ms with
  | nil => cases h
  | cons m' ms ih =>
      rw [depthOfMembers]
      rcases List.mem_cons.mp h with rfl | h
      · have hdepth : depthOfMember m = m.2.depth := by rw [depthOfMember]
        exact hdepth ▸ Nat.le_max_left _ _
      · exact (ih h).trans (Nat.le_max_right _ _)

theorem MsgpackObject.depth_le_of_mem {x : MsgpackObject W} {xs : List (MsgpackObject W)}
    (h : x ∈ xs) : x.depth ≤ depthOfItems xs := by
  induction xs with
  | nil => cases h
  | cons x' xs ih =>
      rw [depthOfItems]
      rcases List.mem_cons.mp h with rfl | h
      · exact Nat.le_max_left _ _
      · exact (ih h).trans (Nat.le_max_right _ _)

theorem exists_mem_tupleElements {d : Json W} {xs : List (Json W)} (h : d ∈ xs) (i : ℕ) :
    ∃ name, (name, d) ∈ tupleElements i xs := by
  induction xs generalizing i with
  | nil => cases h
  | cons x xs ih =>
      rcases List.mem_cons.mp h with rfl | h
      · exact ⟨_, List.mem_cons_self⟩
      · obtain ⟨name, hmem⟩ := ih h (i + 1)
        exact ⟨name, List.mem_cons_of_mem _ hmem⟩

theorem loadRetrierState_eq (r : Retrier) (type : RetrierType) :
    Retrier.loadRetrierState type [r.baseMillis, r.maxAttempts] = some { r with type } :=
  dif_pos ⟨r.baseMillis_range, r.maxAttempts_range⟩

theorem get_args_cereal (p : Parts (Json W)) :
    ((cereal W).saveRequest p).get .args = .ok (.object (tupleElements 0 p.args)) := by
  obtain ⟨uuid, retrier, title, args, containment⟩ := p
  cases retrier <;> cases title <;> rfl

theorem mem_args_cereal (p : Parts (Json W)) : ∃ ms, (cereal W).saveRequest p = .object ms
    ∧ (Member.args, Json.object (tupleElements 0 p.args)) ∈ ms := by
  refine ⟨_, rfl, ?_⟩
  simp

theorem containment_cereal (p : Parts (Json W)) (hvalid : ContainmentData.Valid p.containment) :
    (cereal W).containment ((cereal W).saveRequest p)
      = .ok (p.containment.map ContainmentData.complete) := by
  obtain ⟨uuid, retrier, title, args, containment⟩ := p
  cases containment with
  | none => cases retrier <;> cases title <;> rfl
  | some c =>
      have hne : c.plainUuid.str ≠ [] := hvalid c rfl
      let doc := (cereal W).saveRequest ⟨uuid, retrier, title, args, some c⟩
      have huuid : doc.getText .plainUuid = .ok c.plainUuid.str := by
        cases retrier <;> cases title <;> rfl
      have hdir : doc.getText .dllDir = .ok c.dllDir.toList := by
        cases retrier <;> cases title <;> rfl
      have hname : doc.getText .dllName = .ok c.dllName.toList := by
        cases retrier <;> cases title <;> rfl
      change ContainmentData.loadMembers doc = _
      simp only [ContainmentData.loadMembers, huuid, hdir, hname, bind, Except.bind, if_neg hne,
        String.ofList_toList]
      rfl

theorem lawful_cereal : (cereal W).Lawful where
  value _ := rfl
  presents p hvalid := by
    refine ⟨rfl, ?_, ?_, ?_, containment_cereal p hvalid, ?_⟩
    · intro r hr type
      obtain ⟨uuid, retrier, title, args, containment⟩ := p
      obtain rfl : retrier = some r := hr
      have hbase : ((cereal W).saveRequest ⟨uuid, some r, title, args, containment⟩).getNumber
          .baseMillis = .ok r.baseMillis := rfl
      have hmax : ((cereal W).saveRequest ⟨uuid, some r, title, args, containment⟩).getNumber
          .maxAttempts = .ok r.maxAttempts := rfl
      change (do
        let baseMillis ← Json.getNumber _ _
        let maxAttempts ← Json.getNumber _ _
        (Retrier.loadRetrierState type [baseMillis, maxAttempts]).elim _ _) = _
      simp only [hbase, hmax, bind, Except.bind, loadRetrierState_eq]
      rfl
    · intro s hs
      obtain ⟨uuid, retrier, title, args, containment⟩ := p
      obtain rfl : title = some s := hs
      cases retrier <;> rfl
    · intro i d hd
      have hlookup := lookup_tupleElements p.args 0 i
      rw [Nat.zero_add] at hlookup
      change (((cereal W).saveRequest p).get .args).bind _ = _
      rw [get_args_cereal]
      change ((tupleElements 0 p.args).lookup (.tupleElement i)).elim _ _ = _
      rw [hlookup, hd]
      rfl
    · intro d hd
      obtain ⟨ms, hms, hmem⟩ := mem_args_cereal p
      obtain ⟨name, hname⟩ := exists_mem_tupleElements hd 0
      have hinner : d.depth ≤ Json.depthOfMembers (tupleElements 0 p.args) :=
        Json.depth_le_of_mem hname
      have houter := Json.depth_le_of_mem hmem
      rw [hms]
      change Json.depth d < Json.depth (.object ms)
      simp only [Json.depth] at houter ⊢
      omega

theorem lawful_msgpack : (msgpack W).Lawful where
  value _ := rfl
  presents p hvalid := by
    obtain ⟨uuid, retrier, title, args, containment⟩ := p
    refine ⟨rfl, ?_, ?_, ?_, ?_, ?_⟩
    · intro r hr type
      obtain rfl : retrier = some r := hr
      change (Retrier.loadRetrierState type [r.baseMillis, r.maxAttempts]).elim _ _ = _
      rw [loadRetrierState_eq]
      rfl
    · intro s hs
      obtain rfl : title = some s := hs
      rfl
    · intro i d hd
      change (args[i]?).elim _ _ = _
      rw [show args[i]? = some d from hd]
      rfl
    · cases containment with
      | none => rfl
      | some c => simp [msgpack, MsgpackObject.subobj, ContainmentData.saveObject,
          ContainmentData.loadObject, MsgpackObject.convertText, bind, Except.bind, pure,
          Except.pure, ContainmentData.complete, RequestUuid.complete]
    · intro d hd
      have hinner : d.depth ≤ MsgpackObject.depthOfItems args :=
        MsgpackObject.depth_le_of_mem hd
      change MsgpackObject.depth d < MsgpackObject.depth (.array _)
      simp only [MsgpackObject.depth, MsgpackObject.depthOfItems]
      omega

end

/-! ## What is saved can be loaded -/

namespace SeriRequest
variable {T V F : Type}

/-- A request as the C++ type system sees it.  `Known` tells which class and which function
a uuid stands for. -/
inductive WellTyped (typeOf : V → T) (Known : List Char → ImplClass T → F → Prop) :
    ArgType T → SeriRequest T V F → Prop
  | value (v : V) : WellTyped typeOf Known (.value (typeOf v)) (.value v)
  | function {impl : ImplClass T} {f : F} {data : RequestData} {args : List (SeriRequest T V F)}
      (hknown : Known data.uuid.str impl f) (huuid : ¬ ":proxy".toList <:+: data.uuid.str)
      (htitle : data.title.isSome = impl.introspective)
      (hcontainment : ContainmentData.Valid data.containment)
      (hargs : List.Forall₂ (WellTyped typeOf Known) impl.args args) :
      WellTyped typeOf Known (.request (objectType impl data)) (.function impl f data args)

/-- `p` can be sent for `r`: at each place it has the request itself, or a proxy request with
the same parts. -/
inductive Mirrors : SeriRequest T V F → SeriRequest T V F → Prop
  | value (v : V) : Mirrors (.value v) (.value v)
  | function {impl : ImplClass T} {f : F} {data : RequestData}
      {args args' : List (SeriRequest T V F)} (hargs : List.Forall₂ Mirrors args args') :
      Mirrors (.function impl f data args) (.function impl f data args')
  | proxy {impl : ImplClass T} {f : F} {data data' : RequestData}
      {args args' : List (SeriRequest T V F)}
      (huuid : RequestUuid.deproxyUuidStr data'.uuid.str = data.uuid.str)
      (hretrier : ∀ r ∈ data.retrier, ∃ r', data'.retrier = some r'
        ∧ { r' with type := r.type } = r)
      (htitle : ∀ s, data.title = some s → data'.title = some s)
      (hcontainment : data'.containment = data.containment)
      (hargs : List.Forall₂ Mirrors args args') :
      Mirrors (.function impl f data args) (.proxy data' args')

end SeriRequest

/-- What `create_impl` and `find_function` find for a uuid. -/
def Provides {T F : Type} (registry : SeriRegistry (ObjectType T) (ImplClass T) F)
    (uuidStr : List Char) (impl : ImplClass T) (f : F) : Prop :=
  ∃ entry, registry.findEntry (String.ofList uuidStr) false = .ok entry
    ∧ entry.create = impl ∧ entry.function = some f

section
variable {T V F W D : Type} {a : Archive W D}
  {registry : SeriRegistry (ObjectType T) (ImplClass T) F} {encode : V → W}
  {decode : T → W → Option V} {typeOf : V → T}

open SeriRequest

theorem loadArgs_saveArgs {Known : List Char → ImplClass T → F → Prop}
    {loadArg : ArgType T → D → Except LoadError (SeriRequest T V F)} {doc : D}
    {ts : List (ArgType T)} {rs ps : List (SeriRequest T V F)}
    (hts : List.Forall₂ (WellTyped typeOf Known) ts rs) (hps : List.Forall₂ Mirrors rs ps)
    (i : ℕ)
    (hdocs : ∀ (j : ℕ) d, (a.saveArgs encode ps)[j]? = some d → a.arg doc (i + j) = .ok d)
    (hload : ∀ t r p, p ∈ ps → WellTyped typeOf Known t r → Mirrors r p →
      loadArg t (a.save encode p) = .ok r.complete) :
    a.loadArgs loadArg doc i ts = .ok (completeArgs rs) := by
  induction hts generalizing i ps with
  | nil => rfl
  | @cons t r ts rs ht _ ih =>
      cases hps with
      | @cons _ p _ ps hp hps =>
          have hfirst : a.arg doc i = .ok (a.save encode p) := hdocs 0 _ rfl
          have hrest := ih hps (i + 1) (fun j d hd => ?_)
            fun t r p' hmem => hload t r p' (List.mem_cons_of_mem _ hmem)
          · simp only [Archive.loadArgs, hfirst, bind, Except.bind,
              hload t r p List.mem_cons_self ht hp, hrest, completeArgs]
          · have hj := hdocs (j + 1) d hd
            rwa [show i + (j + 1) = i + 1 + j by omega] at hj

theorem mem_saveArgs {p : SeriRequest T V F} {ps : List (SeriRequest T V F)} (h : p ∈ ps) :
    a.save encode p ∈ a.saveArgs encode ps := by
  induction ps with
  | nil => cases h
  | cons p' ps ih =>
      rcases List.mem_cons.mp h with rfl | h
      · exact List.mem_cons_self
      · exact List.mem_cons_of_mem _ (ih h)

/-- Induction over trees of requests. -/
@[elab_as_elim]
theorem SeriRequest.induction {P : SeriRequest T V F → Prop} (value : ∀ v, P (.value v))
    (function : ∀ impl f data args, (∀ x ∈ args, P x) → P (.function impl f data args))
    (proxy : ∀ data args, (∀ x ∈ args, P x) → P (.proxy data args)) (r : SeriRequest T V F) :
    P r :=
  match r with
  | .value v => value v
  | .function impl f data args => function impl f data args fun x hx =>
      have := List.sizeOf_lt_of_mem hx
      SeriRequest.induction value function proxy x
  | .proxy data args => proxy data args fun x hx =>
      have := List.sizeOf_lt_of_mem hx
      SeriRequest.induction value function proxy x
termination_by sizeOf r

/-- A request can be sent for itself. -/
theorem SeriRequest.WellTyped.mirrors {Known : List Char → ImplClass T → F → Prop}
    {t : ArgType T} {r : SeriRequest T V F} (h : r.WellTyped typeOf Known t) : Mirrors r r := by
  induction r using SeriRequest.induction generalizing t with
  | value v => exact .value v
  | proxy data args ih => cases h
  | function impl f data args ih =>
      cases h with
      | function hknown huuid htitle hcontainment hargs =>
          refine .function ?_
          generalize impl.args = ts at hargs
          induction hargs with
          | nil => exact .nil
          | cons ht _ ihargs =>
              obtain ⟨hx, hxs⟩ := List.forall_mem_cons.mp ih
              exact .cons (hx ht) (ihargs hxs)

theorem forall₂_of_loadArgs {P : ArgType T → SeriRequest T V F → Prop}
    {loadArg : ArgType T → D → Except LoadError (SeriRequest T V F)} {doc : D}
    (hload : ∀ t d r, loadArg t d = .ok r → P t r) {i : ℕ} {ts : List (ArgType T)}
    {rs : List (SeriRequest T V F)} (h : a.loadArgs loadArg doc i ts = .ok rs) :
    List.Forall₂ P ts rs := by
  induction ts generalizing i rs with
  | nil =>
      cases h
      exact .nil
  | cons t ts ih =>
      obtain ⟨d, hd, h⟩ := Except.bind_eq_ok.mp h
      obtain ⟨x, hx, h⟩ := Except.bind_eq_ok.mp h
      obtain ⟨xs, hxs, h⟩ := Except.bind_eq_ok.mp h
      obtain rfl := Except.ok.inj h
      exact .cons (hload t d x hx) (ih hxs)

/-- What loading gives: a request that is the same when it is saved and loaded again. -/
def Loads (typeOf : V → T) (registry : SeriRegistry (ObjectType T) (ImplClass T) F)
    (t : ArgType T) (r : SeriRequest T V F) : Prop :=
  r.WellTyped typeOf (Provides registry) t ∧ r.complete = r

theorem completeArgs_of_forall₂ {ts : List (ArgType T)} {args : List (SeriRequest T V F)}
    (h : List.Forall₂ (Loads typeOf registry) ts args) : completeArgs args = args := by
  induction h with
  | nil => rfl
  | cons hx _ ih => rw [completeArgs, hx.2, ih]

variable [DecidableEq T]

/-- A document that has the parts of a request, and arguments that can be loaded. -/
theorem load_of_presents {n : ℕ} {doc : D} {parts : Parts D} (h : a.Presents doc parts)
    {impl : ImplClass T} {f : F} {data : RequestData} {args : List (SeriRequest T V F)}
    (hknown : Provides registry data.uuid.str impl f)
    (huuid : RequestUuid.deproxyUuidStr parts.uuid = data.uuid.str)
    (hretrier : ∀ r ∈ data.retrier, ∃ r', parts.retrier = some r'
      ∧ { r' with type := r.type } = r)
    (hintrospective : data.title.isSome = impl.introspective)
    (htitle : ∀ s, data.title = some s → parts.title = some s)
    (hcontainment : parts.containment = data.containment)
    (hargs : a.loadArgs (a.load registry decode n) doc 0 impl.args = .ok args) :
    a.load registry decode (n + 1) (.request (objectType impl data)) doc
      = .ok (.function impl f data.complete args) := by
  obtain ⟨entry, hentry, rfl, hf⟩ := hknown
  have hloaded : (RequestUuid.loadWithName parts.uuid).deproxy = data.uuid.complete := by
    rw [RequestUuid.complete, ← huuid]
    simp [RequestUuid.loadWithName, RequestUuid.load, RequestUuid.deproxy, RequestUuid.doFinalize,
      RequestUuid.extensions, RequestUuid.ofComplete]
  have hretrier' : a.loadRetrierState doc (objectType entry.create data).retrier
      = .ok data.retrier := by
    cases hr : data.retrier with
    | none => simp [objectType, hr, Archive.loadRetrierState]
    | some r =>
        obtain ⟨r', hr', heq⟩ := hretrier r hr
        simp [objectType, hr, Archive.loadRetrierState, h.retrier r' hr', heq, Except.map]
  have hcreate : createImpl registry (objectType entry.create data) data.uuid.complete
      = .ok entry := by
    have hstr : data.uuid.complete.str = data.uuid.str := rfl
    simp [createImpl, hstr, hentry, objectType]
  have htitle' : a.loadIntrspState doc entry.create.introspective = .ok data.title := by
    cases ht : data.title with
    | none => simp [Archive.loadIntrspState, ← hintrospective, ht]
    | some s =>
        simp [Archive.loadIntrspState, ← hintrospective, ht, h.title s (htitle s ht), Except.map]
  simp only [Archive.load, h.uuid, bind, Except.bind, hloaded, hretrier', hcreate, htitle', hargs,
    h.containment, hf, Option.elim, hcontainment]
  rfl

/-- What is sent for a request is loaded as that request, by any format. -/
theorem load_save (ha : a.Lawful) (hcodec : ∀ v, decode (typeOf v) (encode v) = some v) {n : ℕ}
    {t : ArgType T} {r p : SeriRequest T V F}
    (hr : r.WellTyped typeOf (Provides registry) t) (hp : Mirrors r p)
    (hn : a.depth (a.save encode p) < n) :
    a.load registry decode n t (a.save encode p) = .ok r.complete := by
  -- The arguments are less deep than the request.
  induction n generalizing t r p with
  | zero => exact absurd hn (Nat.not_lt_zero _)
  | succ n ih =>
      have hargs : ∀ {ts : List (ArgType T)} {rs ps : List (SeriRequest T V F)} {parts : Parts D}
          {doc : D}, List.Forall₂ (WellTyped typeOf (Provides registry)) ts rs →
          List.Forall₂ Mirrors rs ps → parts.args = a.saveArgs encode ps →
          a.Presents doc parts → a.depth doc < n + 1 →
          a.loadArgs (a.load registry decode n) doc 0 ts = .ok (completeArgs rs) := by
        intro ts rs ps parts doc hts hps hparts hpres hdepth
        refine loadArgs_saveArgs hts hps 0 (fun j d hd => ?_) fun t r p hmem ht hp => ih ht hp ?_
        · rw [Nat.zero_add]
          exact hpres.arg j d (hparts ▸ hd)
        · have hless := hpres.depth _ (hparts ▸ mem_saveArgs hmem)
          omega
      cases hp with
      | value v =>
          cases hr with
          | value =>
              simp [Archive.load, Archive.save, ha.value, hcodec, bind, Except.bind, complete]
      | @function impl f data args args' hps =>
          cases hr with
          | function hknown huuid htitle hcontainment hts =>
              have hpres := ha.presents
                { data with uuid := data.uuid.str, args := a.saveArgs encode args' } hcontainment
              exact load_of_presents hpres hknown (RequestUuid.deproxyUuidStr_of_not_infix huuid)
                (fun r hr => ⟨r, hr, rfl⟩) htitle (fun s hs => hs) rfl
                (hargs hts hps rfl hpres hn)
      | @proxy impl f data data' args args' huuid' hretrier htitle' hcontainment' hps =>
          cases hr with
          | function hknown huuid htitle hcontainment hts =>
              have hpres := ha.presents
                { data' with uuid := data'.uuid.str, args := a.saveArgs encode args' }
                (hcontainment'.symm ▸ hcontainment)
              exact load_of_presents hpres hknown huuid' hretrier htitle htitle' hcontainment'
                (hargs hts hps rfl hpres hn)

/-! ## What is loaded is a request -/

/-- What the parts of a format are after loading. -/
structure Archive.Checked (a : Archive W D) : Prop where
  retrier : ∀ doc type r, a.retrier doc type = .ok r → r.type = type
  valid : ∀ doc c, a.containment doc = .ok c → ContainmentData.Valid c
  complete : ∀ doc c, a.containment doc = .ok c → c.map ContainmentData.complete = c

/-- The object that is created is of the class that is loaded. -/
theorem createImpl_eq_ok {obj : ObjectType T} {uuid : RequestUuid}
    {entry : Entry (ObjectType T) (ImplClass T) F}
    (h : createImpl registry obj uuid = .ok entry) :
    registry.findEntry (String.ofList uuid.str) false = .ok entry
      ∧ entry.create.valueType = obj.valueType := by
  unfold createImpl at h
  cases hfind : registry.findEntry (String.ofList uuid.str) false with
  | error e => simp [hfind] at h
  | ok entry' =>
      simp only [hfind] at h
      split at h
      case isTrue hvalue =>
          cases h
          exact ⟨rfl, hvalue⟩
      case isFalse => cases h

theorem type_of_loadRetrierState (ha : a.Checked) {doc : D} {type : Option RetrierType}
    {retrier : Option Retrier} (h : a.loadRetrierState doc type = .ok retrier) :
    retrier.map Retrier.type = type := by
  cases type with
  | none =>
      cases h
      rfl
  | some type =>
      cases hr : a.retrier doc type with
      | error e => simp [Archive.loadRetrierState, hr, Except.map] at h
      | ok r =>
          simp only [Archive.loadRetrierState, hr, Except.map, Except.ok.injEq] at h
          rw [← h, Option.map_some, ha.retrier doc type r hr]

theorem isSome_of_loadIntrspState {doc : D} {introspective : Bool}
    {title : Option (List Char)} (h : a.loadIntrspState doc introspective = .ok title) :
    title.isSome = introspective := by
  cases introspective with
  | false =>
      cases h
      rfl
  | true =>
      cases ht : a.title doc with
      | error e => simp [Archive.loadIntrspState, ht, Except.map] at h
      | ok s =>
          simp only [Archive.loadIntrspState, if_true, ht, Except.map, Except.ok.injEq] at h
          rw [← h, Option.isSome_some]

theorem loads_of_load (ha : a.Checked) (hdecode : ∀ t w v, decode t w = some v → typeOf v = t)
    {n : ℕ} {t : ArgType T} {doc : D} {r : SeriRequest T V F}
    (h : a.load registry decode n t doc = .ok r) : Loads typeOf registry t r := by
  induction n generalizing t doc r with
  | zero => cases h
  | succ n ih =>
      cases t with
      | value t =>
          obtain ⟨w, -, h⟩ := Except.bind_eq_ok.mp h
          cases hv : decode t w with
          | none => simp [hv] at h
          | some v =>
              obtain rfl : SeriRequest.value v = r := by simpa [hv] using h
              obtain rfl := hdecode t w v hv
              exact ⟨.value v, rfl⟩
      | request obj =>
          obtain ⟨uuid, -, h⟩ := Except.bind_eq_ok.mp h
          obtain ⟨retrier, hretrier, h⟩ := Except.bind_eq_ok.mp h
          obtain ⟨entry, hentry, h⟩ := Except.bind_eq_ok.mp h
          obtain ⟨title, htitle, h⟩ := Except.bind_eq_ok.mp h
          obtain ⟨args, hargs, h⟩ := Except.bind_eq_ok.mp h
          obtain ⟨containment, hcontainment, h⟩ := Except.bind_eq_ok.mp h
          cases hf : entry.function with
          | none => simp [hf] at h
          | some f =>
              simp only [hf, Option.elim, Except.ok.injEq] at h
              subst h
              have hitems := forall₂_of_loadArgs
                (fun t d x (hx : a.load registry decode n t d = .ok x) => ih hx) hargs
              obtain ⟨hentry, hvalue⟩ := createImpl_eq_ok hentry
              let data : RequestData := {
                uuid := (RequestUuid.loadWithName uuid).deproxy, retrier, title, containment }
              have hobj : obj = objectType entry.create data := by
                rw [objectType, hvalue, type_of_loadRetrierState ha hretrier]
              have hstr : data.uuid.str = RequestUuid.deproxyUuidStr uuid :=
                RequestUuid.str_deproxy_loaded (by simp)
              have hcomplete : data.complete = data := by
                have huuid : (RequestUuid.loadWithName uuid).deproxy.complete
                    = (RequestUuid.loadWithName uuid).deproxy := by
                  simp [RequestUuid.complete, RequestUuid.deproxy, RequestUuid.doFinalize,
                    RequestUuid.loadWithName, RequestUuid.load, RequestUuid.extensions,
                    RequestUuid.ofComplete, RequestUuid.str]
                simp only [RequestData.complete, data, ha.complete doc containment hcontainment,
                  huuid]
              rw [hobj]
              refine ⟨.function ⟨entry, hentry, rfl, hf⟩ ?_ (isSome_of_loadIntrspState htitle)
                (ha.valid doc containment hcontainment) (hitems.imp fun _ _ => And.left), ?_⟩
              · rw [hstr]
                exact RequestUuid.not_infix_deproxyUuidStr uuid
              · rw [complete, completeArgs_of_forall₂ hitems]
                exact congrArg (SeriRequest.function entry.create f · args) hcomplete

theorem type_of_numbers {type : RetrierType} {numbers : List ℤ} {r : Retrier}
    (h : (Retrier.loadRetrierState type numbers).elim (Except.error LoadError.malformed) Except.ok
      = .ok r) : r.type = type := by
  cases hr : Retrier.loadRetrierState type numbers with
  | none => simp [hr] at h
  | some r' =>
      simp only [hr, Option.elim, Except.ok.injEq] at h
      subst h
      unfold Retrier.loadRetrierState at hr
      split at hr
      · split at hr
        · cases hr
          rfl
        · cases hr
      · cases hr

theorem loadMembers_eq_ok {doc : Json W} {c : Option ContainmentData}
    (h : ContainmentData.loadMembers doc = .ok c) :
    c = none ∨ ∃ plainUuidStr dllDir dllName, plainUuidStr ≠ []
      ∧ c = some ⟨.ofComplete plainUuidStr, dllDir, dllName⟩ := by
  obtain ⟨plainUuidStr, -, h⟩ := Except.bind_eq_ok.mp h
  by_cases hempty : plainUuidStr = []
  · rw [if_pos hempty] at h
    cases h
    exact .inl rfl
  · rw [if_neg hempty] at h
    obtain ⟨dllDir, -, h⟩ := Except.bind_eq_ok.mp h
    obtain ⟨dllName, -, h⟩ := Except.bind_eq_ok.mp h
    cases h
    exact .inr ⟨plainUuidStr, _, _, hempty, rfl⟩

theorem checked_cereal : (cereal W).Checked where
  retrier doc type r h := by
    obtain ⟨baseMillis, -, h⟩ := Except.bind_eq_ok.mp h
    obtain ⟨maxAttempts, -, h⟩ := Except.bind_eq_ok.mp h
    exact type_of_numbers h
  valid doc c h := by
    rcases loadMembers_eq_ok h with rfl | ⟨plainUuidStr, dllDir, dllName, hne, rfl⟩
    · intro c' hc'
      cases hc'
    · intro c' hc'
      cases hc'
      exact hne
  complete doc c h := by
    rcases loadMembers_eq_ok h with rfl | ⟨plainUuidStr, dllDir, dllName, hne, rfl⟩
    · rfl
    · rfl

end

/-- What `normalize_arg` makes of an `int`: its class, its properties and the request. -/
def normalizerClass : ImplClass Unit :=
  { valueType := (), level := .none, args := [.value ()] }

def normalizerData : RequestData := { uuid := { base := "normalization<int,func>".toList } }

def normalizer (v : ℤ) : SeriRequest Unit ℤ String :=
  .function normalizerClass "identity_func" normalizerData [.value v]

/-- A registry that has the class. -/
def normalizerEntry : Entry (ObjectType Unit) (ImplClass Unit) String where
  catId := 1
  resolver := some { valueType := () }
  create := normalizerClass
  function := some "identity_func"

def normalizers : SeriRegistry (ObjectType Unit) (ImplClass Unit) String :=
  SeriRegistry.run [.add "normalization<int,func>" normalizerEntry]

theorem wellTyped_normalizer {Known : List Char → ImplClass Unit → String → Prop}
    (h : Known normalizerData.uuid.str normalizerClass "identity_func") (v : ℤ) :
    (normalizer v).WellTyped (fun _ => ()) Known (.request { valueType := () }) := by
  have hcontainment : ContainmentData.Valid normalizerData.containment := fun _ hc => by cases hc
  exact .function h (by decide) rfl hcontainment (.cons (.value v) .nil)

end Cradle.Resolve
