import Cradle.Resolve.RequestDocuments

/-!
# Requests that are sent to another process

A client sends a request as a cereal document, often of a proxy request; the server finds
the resolver for its uuid, and that one loads the document as a request of its own type.
What a server can load is what its catalogs have registered, each from a sample request
with all of its subrequests; catalogs come and go with their DLLs.

A contained request is sent to a subprocess: with the arguments' values in place of the
arguments, and under the uuid of the variant that takes plain values.

The uuid is cut out of the document's text, by a search for the first `"uuid"`; it is taken
here to be the member, which is the first one that is written.
-/

namespace Cradle.Resolve

open Registry SeriRequest

variable {T V F W : Type}

/-! ## Catalogs -/

/-- What identifies a request's class: an element of a sample. -/
structure Node (T F : Type) where
  uuidStr : List Char
  obj : ObjectType T
  impl : ImplClass T
  f : F

namespace SeriRequest

mutual
/-- The requests in a request. -/
def nodes : SeriRequest T V F → List (Node T F)
  | .value _ => []
  | .function impl f data args =>
      { uuidStr := data.uuid.str, obj := objectType impl data, impl, f } :: nodesOfArgs args
  | .proxy _ _ => []
def nodesOfArgs : List (SeriRequest T V F) → List (Node T F)
  | [] => []
  | x :: xs => x.nodes ++ nodesOfArgs xs
end

end SeriRequest

def Node.entry (catId : CatalogId) (node : Node T F) : Entry (ObjectType T) (ImplClass T) F :=
  { catId, resolver := some node.obj, create := node.impl, function := some node.f }

/-- `function_request_impl::register_uuid`: the calls of `add`, for the request and for the
requests among its arguments. -/
def SeriRequest.registerUuid (catId : CatalogId) (r : SeriRequest T V F) :
    List (Op (ObjectType T) (ImplClass T) F) :=
  r.nodes.map fun node => .add (String.ofList node.uuidStr) (node.entry catId)

/-- Calls of `seri_catalog`. -/
inductive CatalogCall (T V F : Type)
  | registerResolver (catId : CatalogId) (sample : SeriRequest T V F)
  | unregisterAll (catId : CatalogId)

def CatalogCall.ops : CatalogCall T V F → List (Op (ObjectType T) (ImplClass T) F)
  | registerResolver catId sample => sample.registerUuid catId
  | unregisterAll catId => [.unregisterCatalog catId]

/-- The registry after a sequence of calls, the oldest first. -/
def registryAfter (calls : List (CatalogCall T V F)) :
    SeriRegistry (ObjectType T) (ImplClass T) F :=
  SeriRegistry.run (calls.flatMap CatalogCall.ops)

/-- A call registers the class, and its catalog stays. -/
def LiveNode (calls : List (CatalogCall T V F)) (node : Node T F) : Prop :=
  ∃ before catId sample after, calls = before ++ .registerResolver catId sample :: after
    ∧ .unregisterAll catId ∉ after ∧ node ∈ sample.nodes

def RegisteredNode (calls : List (CatalogCall T V F)) (node : Node T F) : Prop :=
  ∃ catId sample, .registerResolver catId sample ∈ calls ∧ node ∈ sample.nodes

/-- The caller's part: a uuid identifies the class and the function. -/
def UuidsUnique (calls : List (CatalogCall T V F)) : Prop :=
  ∀ node node', RegisteredNode calls node → RegisteredNode calls node' →
    node.uuidStr = node'.uuidStr → node.impl = node'.impl ∧ node.f = node'.f

/-! ## The server -/

section
variable [DecidableEq T] (registry : SeriRegistry (ObjectType T) (ImplClass T) F)
  (decode : T → W → Option V)

/-- `resolve_serialized_local` and `seri_resolver_impl::resolve`, up to the request that is
resolved. -/
def receive (seriReq : Json W) : Except LoadError (SeriRequest T V F) := do
  let uuidStr := RequestUuid.deproxyUuidStr (← (cereal W).uuid seriReq)
  match registry.findEntry (String.ofList uuidStr) true with
  | .ok entry => entry.resolver.elim (.error .nullResolver) fun obj =>
      (cereal W).deserialize registry decode (.request obj) seriReq
  | .error e => .error (.unregisteredUuid e)

end

/-- `serialize_contained_request`. -/
def serializeContainedRequest (encode : V → W) (containment : ContainmentData)
    (title : Option (List Char)) (subResults : List V) : Json W :=
  .object (
    (.uuid, .text containment.plainUuid.str)
      :: ((title.map fun s => [(Member.title, .text s)]).getD []
        ++ ContainmentData.saveMembers none
        ++ [(.args, .object (tupleElements 0 (subResults.map fun v => .value (encode v))))]))

/-! ## What the registry provides -/

section
variable {calls : List (CatalogCall T V F)} {ops : List (Op (ObjectType T) (ImplClass T) F)}

/-- An entry that was added, and whose catalog is still there, or another one for the same
uuid, is found. -/
theorem exists_findEntry {uuidStr : String} {e : Entry (ObjectType T) (ImplClass T) F}
    {before after : List (Op (ObjectType T) (ImplClass T) F)}
    (hops : ops = before ++ .add uuidStr e :: after) (hlive : .unregisterCatalog e.catId ∉ after) :
    ∃ e', .add uuidStr e' ∈ ops
      ∧ ∀ verbose, (SeriRegistry.run ops).findEntry uuidStr verbose = .ok e' := by
  have hreflects := SeriRegistry.reflects_run ops
  have hadds : AddsForGood ops uuidStr before.length e := by
    subst hops
    refine ⟨by simp, ?_⟩
    rwa [← List.drop_drop, List.drop_left, List.drop_one, List.tail_cons]
  have hmem : e.catId ∈ ((SeriRegistry.run ops).innerList uuidStr).map Entry.catId :=
    ((hreflects.one_each uuidStr).2 e.catId).mpr ⟨_, e, hadds, rfl⟩
  cases hlist : (SeriRegistry.run ops).innerList uuidStr with
  | nil => simp [hlist] at hmem
  | cons e' es =>
      have hhead : ((SeriRegistry.run ops).innerList uuidStr).head? = some e' := by rw [hlist]; rfl
      obtain ⟨i, hreg, -⟩ := hreflects.head_eq.mp hhead
      refine ⟨e', List.mem_of_getElem? hreg.1.1, fun verbose => ?_⟩
      exact (SeriRegistry.findEntry_eq_ok hreflects.no_empty_list).mpr hhead

theorem add_mem_ops {uuidStr : String} {e : Entry (ObjectType T) (ImplClass T) F}
    (h : .add uuidStr e ∈ calls.flatMap CatalogCall.ops) :
    ∃ node catId, RegisteredNode calls node ∧ uuidStr = String.ofList node.uuidStr
      ∧ e = node.entry catId := by
  obtain ⟨call, hcall, hmem⟩ := List.mem_flatMap.mp h
  cases call with
  | registerResolver catId sample =>
      obtain ⟨node, hnode, heq⟩ := List.mem_map.mp hmem
      cases heq
      exact ⟨node, catId, ⟨catId, sample, hcall, hnode⟩, rfl, rfl⟩
  | unregisterAll catId =>
      obtain heq := List.mem_singleton.mp hmem
      cases heq

/-- A class of a catalog that is still there is found under its uuid. -/
theorem findEntry_of_liveNode (hunique : UuidsUnique calls) {node : Node T F}
    (h : LiveNode calls node) : ∃ node' catId, RegisteredNode calls node'
      ∧ node'.uuidStr = node.uuidStr ∧ node'.impl = node.impl ∧ node'.f = node.f
      ∧ ∀ verbose, (registryAfter calls).findEntry (String.ofList node.uuidStr) verbose
          = .ok (node'.entry catId) := by
  obtain ⟨before, catId, sample, after, hcalls, hlive, hnode⟩ := h
  obtain ⟨nodes, rest, hnodes⟩ := List.append_of_mem hnode
  have hreg : RegisteredNode calls node := ⟨catId, sample, by simp [hcalls], hnode⟩
  have hops : calls.flatMap CatalogCall.ops = (before.flatMap CatalogCall.ops
        ++ nodes.map fun n => .add (String.ofList n.uuidStr) (n.entry catId))
      ++ .add (String.ofList node.uuidStr) (node.entry catId)
        :: (rest.map (fun n => .add (String.ofList n.uuidStr) (n.entry catId))
          ++ after.flatMap CatalogCall.ops) := by
    simp [hcalls, CatalogCall.ops, registerUuid, hnodes]
  obtain ⟨e', hadd, hfind⟩ := exists_findEntry hops (by
    intro hmem
    rcases List.mem_append.mp hmem with hmem | hmem
    · obtain ⟨_, -, heq⟩ := List.mem_map.mp hmem
      cases heq
    · obtain ⟨call, hcall, hmem⟩ := List.mem_flatMap.mp hmem
      cases call with
      | registerResolver catId' sample' =>
          obtain ⟨_, -, heq⟩ := List.mem_map.mp hmem
          cases heq
      | unregisterAll catId' =>
          cases List.mem_singleton.mp hmem
          exact hlive hcall)
  obtain ⟨node', catId', hreg', huuid, rfl⟩ := add_mem_ops hadd
  have huuid' : node'.uuidStr = node.uuidStr := (String.ofList_injective huuid).symm
  obtain ⟨himpl, hf⟩ := hunique node' node hreg' hreg huuid'
  exact ⟨node', catId', hreg', huuid', himpl, hf, hfind⟩

end

/-! ## What the server resolves -/

section
variable {calls : List (CatalogCall T V F)} {encode : V → W}
  {decode : T → W → Option V} {typeOf : V → T}

/-- A class that can be loaded at the server, after the calls. -/
def Served (calls : List (CatalogCall T V F)) (uuidStr : List Char) (impl : ImplClass T) (f : F) :
    Prop :=
  ∃ node, LiveNode calls node ∧ node.uuidStr = uuidStr ∧ node.impl = impl ∧ node.f = f

theorem provides_of_served (hunique : UuidsUnique calls) {uuidStr : List Char}
    {impl : ImplClass T} {f : F} (h : Served calls uuidStr impl f) :
    Provides (registryAfter calls) uuidStr impl f := by
  obtain ⟨node, hlive, rfl, rfl, rfl⟩ := h
  obtain ⟨node', catId, -, -, himpl, hf, hfind⟩ := findEntry_of_liveNode hunique hlive
  exact ⟨_, hfind false, himpl, congrArg some hf⟩

theorem SeriRequest.WellTyped.imp {Known Known' : List Char → ImplClass T → F → Prop}
    (hknown : ∀ uuidStr impl f, Known uuidStr impl f → Known' uuidStr impl f) {t : ArgType T}
    {r : SeriRequest T V F} (h : r.WellTyped typeOf Known t) : r.WellTyped typeOf Known' t := by
  induction r using SeriRequest.induction generalizing t with
  | value v =>
      cases h
      exact .value v
  | proxy data args ih => cases h
  | function impl f data args ih =>
      cases h with
      | function hk huuid htitle hcontainment hargs =>
          refine .function (hknown _ _ _ hk) huuid htitle hcontainment ?_
          generalize impl.args = ts at hargs
          induction hargs with
          | nil => exact .nil
          | cons ht _ ihargs =>
              obtain ⟨hx, hxs⟩ := List.forall_mem_cons.mp ih
              exact .cons (hx ht) (ihargs hxs)

theorem SeriRequest.WellTyped.known {Known : List Char → ImplClass T → F → Prop} {t : ArgType T}
    {impl : ImplClass T} {f : F} {data : RequestData} {args : List (SeriRequest T V F)}
    (h : WellTyped typeOf Known t (.function impl f data args)) :
    Known data.uuid.str impl f ∧ ¬ ":proxy".toList <:+: data.uuid.str := by
  cases h with
  | function hknown huuid => exact ⟨hknown, huuid⟩

theorem loadArgs_values {a : Archive W (Json W)} {doc : Json W}
    {loadArg : ArgType T → Json W → Except LoadError (SeriRequest T V F)} (subResults : List V)
    (i : ℕ) (harg : ∀ (j : ℕ) v, subResults[j]? = some v →
      a.arg doc (i + j) = .ok (.value (encode v)))
    (hload : ∀ v, loadArg (.value (typeOf v)) (.value (encode v)) = .ok (.value v)) :
    a.loadArgs loadArg doc i (subResults.map fun v => .value (typeOf v))
      = .ok (subResults.map .value) := by
  induction subResults generalizing i with
  | nil => rfl
  | cons v vs ih =>
      have hfirst : a.arg doc i = .ok (.value (encode v)) := harg 0 v rfl
      have hrest := ih (i + 1) fun j v' hv' => by
        have hj := harg (j + 1) v' hv'
        rwa [show i + (j + 1) = i + 1 + j by omega] at hj
      simp only [List.map_cons, Archive.loadArgs, hfirst, bind, Except.bind, hload, hrest]

theorem presents_contained (containment : ContainmentData) (title : Option (List Char))
    (subResults : List V) :
    (cereal W).Presents (serializeContainedRequest encode containment title subResults)
      { uuid := containment.plainUuid.str, retrier := none, title
        args := subResults.map fun v => .value (encode v), containment := none } where
  uuid := rfl
  retrier _ hr := by cases hr
  title s hs := by
    obtain rfl : title = some s := hs
    rfl
  arg i d hd := by
    have hget : (serializeContainedRequest encode containment title subResults).get .args
        = .ok (.object (tupleElements 0 (subResults.map fun v => .value (encode v)))) := by
      cases title <;> rfl
    have hlookup := lookup_tupleElements (subResults.map fun v => Json.value (encode v)) 0 i
    rw [Nat.zero_add] at hlookup
    change (Json.get _ .args).bind _ = _
    rw [hget]
    change ((tupleElements 0 _).lookup (.tupleElement i)).elim _ _ = _
    rw [hlookup, hd]
    rfl
  containment := by cases title <;> rfl
  depth d hd := by
    obtain ⟨v, -, rfl⟩ := List.mem_map.mp hd
    change 0 < Json.depth (.object _)
    rw [Json.depth]
    exact Nat.succ_pos _

variable [DecidableEq T]

/-- A request with a normalized argument. -/
def adderClass : ImplClass Unit :=
  { valueType := (), level := .full, args := [.request { valueType := () }, .value ()] }

def adderData : RequestData where
  uuid := { base := "adder".toList, level := some .full }
  retrier := some defaultRetrier

def adder (x y : ℤ) : SeriRequest Unit ℤ String :=
  .function adderClass "adder" adderData [normalizer x, .value y]

/-- The proxy request for it, at a client. -/
def adderProxy (x y : ℤ) : SeriRequest Unit ℤ String :=
  .proxy { adderData with
      uuid := { adderData.uuid with isProxy := true }
      retrier := some { defaultRetrier with type := .proxy } }
    [.proxy { normalizerData with uuid := { normalizerData.uuid with isProxy := true } } [.value x],
      .value y]

/-- Two catalogs with the class, the second one unloaded. -/
def adderCalls : List (CatalogCall Unit ℤ String) :=
  [.registerResolver 1 (adder 0 0), .registerResolver 2 (adder 1 1), .unregisterAll 2]

def adderNode : Node Unit String :=
  ⟨adderData.uuid.str, objectType adderClass adderData, adderClass, "adder"⟩

def normalizerNode : Node Unit String :=
  ⟨normalizerData.uuid.str, objectType normalizerClass normalizerData, normalizerClass,
    "identity_func"⟩

theorem nodes_adder (x y : ℤ) : (adder x y).nodes = [adderNode, normalizerNode] := rfl

theorem mem_nodes_adder {node : Node Unit String} (h : RegisteredNode adderCalls node) :
    node = adderNode ∨ node = normalizerNode := by
  obtain ⟨catId, sample, hcall, hnode⟩ := h
  have hsample : sample = adder 0 0 ∨ sample = adder 1 1 := by
    simp only [adderCalls, List.mem_cons, CatalogCall.registerResolver.injEq, reduceCtorEq,
      List.not_mem_nil, or_false] at hcall
    exact hcall.imp And.right And.right
  rcases hsample with rfl | rfl
  · rw [nodes_adder] at hnode
    exact List.mem_pair.mp hnode
  · rw [nodes_adder] at hnode
    exact List.mem_pair.mp hnode

end

def normalizerContainment : ContainmentData :=
  { plainUuid := normalizerData.uuid, dllDir := "dir", dllName := "name" }

end Cradle.Resolve
