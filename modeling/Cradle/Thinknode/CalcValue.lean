import Cradle.Thinknode.LetCalc
import Cradle.Thinknode.Resolution

/-!
# The values of calculations

`Value` says what a calculation without variables is worth, given the objects, the functions
and the coercions of Thinknode.  The services that the resolution calls and the submitter of
let-calculations are outside of the program; what is relied on is that they go by these values.
-/

namespace Cradle.Thinknode

/-- Thinknode, as far as values go: the objects it stores, its functions, its coercions and the
requests that it reads from the values of generators. -/
structure Server where
  object : Bytes → Option Dynamic
  apply : (account app name : Bytes) → Option ℤ → List Dynamic → Option Dynamic
  coerce : TypeInfo → Dynamic → Option Dynamic
  generated : Dynamic → Option CalcRequest

/-- The value of a calculation.  There are no rules for VARIABLE and LET. -/
inductive Value (server : Server) : CalcRequest → Dynamic → Prop
  | reference {id v} : server.object id = some v → Value server (.reference id) v
  | value {v} : Value server (.value v) v
  | function {account app name level args vs v} : args.length = vs.length →
      (∀ p ∈ args.zip vs, Value server p.1 p.2) →
      server.apply account app name level vs = some v →
      Value server (.function account app name level args) v
  | array {items itemSchema vs ws} : items.length = vs.length →
      (∀ p ∈ items.zip vs, Value server p.1 p.2) →
      List.Forall₂ (fun v w => server.coerce itemSchema v = some w) vs ws →
      Value server (.array items itemSchema) (.array ws)
  | item {array index schema vs i v w} : Value server array (.array vs) →
      Value server index (.integer i) → 0 ≤ i → vs[i.toNat]? = some v →
      server.coerce schema v = some w → Value server (.item array index schema) w
  | object {properties schema vs w} : properties.length = vs.length →
      (∀ p ∈ properties.zip vs, Value server p.1.2 p.2) →
      server.coerce schema (.map (Dynamic.assignFields
        ((properties.map fun property => .string property.1).zip vs))) = some w →
      Value server (.object properties schema) w
  | property {object field schema fields s v w} : Value server object (.map fields) →
      Value server field (.string s) → Dynamic.findField fields (.string s) = some v →
      server.coerce schema v = some w → Value server (.property object field schema) w
  | «meta» {generator schema g request v w} : Value server generator g →
      server.generated g = some request → Value server request v →
      server.coerce schema v = some w → Value server (.meta generator schema) w
  | cast {schema object v w} : Value server object v → server.coerce schema v = some w →
      Value server (.cast schema object) w

section
variable {server : Server}

theorem Value.forall₂ {requests : List CalcRequest} {vs : List Dynamic}
    (h : List.Forall₂ (Value server) requests vs) :
    requests.length = vs.length ∧ ∀ p ∈ requests.zip vs, Value server p.1 p.2 :=
  ⟨h.length_eq, fun _ => (List.forall₂_iff_zip.mp h).2⟩

/-- A calculation has at most one value. -/
theorem Value.unique {request : CalcRequest} {v w : Dynamic} (hv : Value server request v)
    (hw : Value server request w) : v = w := by
  induction hv generalizing w with
  | reference h =>
      cases hw with
      | reference h' => exact Option.some.inj (h.symm.trans h')
  | value => cases hw; rfl
  | function hlength hargs happly ih =>
      cases hw with
      | function hlength' hargs' happly' =>
          cases (List.forall₂_iff_zip.mpr ⟨hlength, fun h w => ih _ h⟩).eq_of_unique
            (List.forall₂_iff_zip.mpr ⟨hlength', fun h => hargs' _ h⟩)
          exact Option.some.inj (happly.symm.trans happly')
  | @array _ itemSchema _ _ hlength hitems hcoerce ih =>
      cases hw with
      | array hlength' hitems' hcoerce' =>
          cases (List.forall₂_iff_zip.mpr ⟨hlength, fun h w => ih _ h⟩).eq_of_unique
            (List.forall₂_iff_zip.mpr ⟨hlength', fun h => hitems' _ h⟩)
          have hunique : Relator.RightUnique fun v w => server.coerce itemSchema v = some w :=
            fun _ _ _ h h' => Option.some.inj (h.symm.trans h')
          rw [List.right_unique_forall₂' hunique hcoerce hcoerce']
  | object hlength hproperties hcoerce ih =>
      cases hw with
      | object hlength' hproperties' hcoerce' =>
          cases (List.forall₂_iff_zip.mpr ⟨hlength, fun h w => ih _ h⟩).eq_of_unique
            (List.forall₂_iff_zip.mpr ⟨hlength', fun h => hproperties' _ h⟩)
          exact Option.some.inj (hcoerce.symm.trans hcoerce')
  | item harray hindex hi hv hcoerce ih ih' =>
      cases hw with
      | item harray' hindex' _ hv' hcoerce' =>
          cases ih harray'
          cases ih' hindex'
          cases hv.symm.trans hv'
          exact Option.some.inj (hcoerce.symm.trans hcoerce')
  | property hobject hfield hv hcoerce ih ih' =>
      cases hw with
      | property hobject' hfield' hv' hcoerce' =>
          cases ih hobject'
          cases ih' hfield'
          cases hv.symm.trans hv'
          exact Option.some.inj (hcoerce.symm.trans hcoerce')
  | «meta» hgenerator hgenerated hv hcoerce ih ih' =>
      cases hw with
      | «meta» hgenerator' hgenerated' hv' hcoerce' =>
          cases ih hgenerator'
          cases hgenerated.symm.trans hgenerated'
          cases ih' hv'
          exact Option.some.inj (hcoerce.symm.trans hcoerce')
  | cast hobject hcoerce ih =>
      cases hw with
      | cast hobject' hcoerce' =>
          cases ih hobject'
          exact Option.some.inj (hcoerce.symm.trans hcoerce')

/-- A calculation that has a value has no VARIABLE and no LET. -/
theorem Value.closed {request : CalcRequest} {v : Dynamic} (h : Value server request v) :
    request.Closed := by
  have hall : ∀ {requests : List CalcRequest} {vs : List Dynamic}, requests.length = vs.length →
      (∀ p ∈ requests.zip vs, p.1.Closed) → ∀ request ∈ requests, request.Closed := by
    intro requests vs hlength hzip request hmem
    have hrequests : (requests.zip vs).map Prod.fst = requests :=
      List.map_fst_zip (Nat.le_of_eq hlength)
    rw [← hrequests] at hmem
    obtain ⟨p, hp, rfl⟩ := List.mem_map.mp hmem
    exact hzip p hp
  induction h with
  | reference h => exact CalcRequest.closed_iff.mpr ⟨⟨rfl, rfl⟩, by simp⟩
  | value => exact CalcRequest.closed_iff.mpr ⟨⟨rfl, rfl⟩, by simp⟩
  | function hlength hargs happly ih =>
      exact CalcRequest.closed_iff.mpr ⟨⟨rfl, rfl⟩, hall hlength ih⟩
  | array hlength hitems hcoerce ih =>
      exact CalcRequest.closed_iff.mpr ⟨⟨rfl, rfl⟩, hall hlength ih⟩
  | object hlength hproperties hcoerce ih =>
      refine CalcRequest.closed_iff.mpr ⟨⟨rfl, rfl⟩, hall (by simpa using hlength) fun p hp => ?_⟩
      rw [CalcRequest.children, List.zip_map_left, List.mem_map] at hp
      obtain ⟨q, hq, rfl⟩ := hp
      exact ih q hq
  | item harray hindex hi hv hcoerce ih ih' =>
      exact CalcRequest.closed_iff.mpr ⟨⟨rfl, rfl⟩, by simpa using ⟨ih, ih'⟩⟩
  | property hobject hfield hv hcoerce ih ih' =>
      exact CalcRequest.closed_iff.mpr ⟨⟨rfl, rfl⟩, by simpa using ⟨ih, ih'⟩⟩
  | «meta» hgenerator hgenerated hv hcoerce ih ih' =>
      exact CalcRequest.closed_iff.mpr ⟨⟨rfl, rfl⟩, by simpa using ih⟩
  | cast hobject hcoerce ih =>
      exact CalcRequest.closed_iff.mpr ⟨⟨rfl, rfl⟩, by simpa using ih⟩

end

/-! ## Services that go by the values -/

/-- The services go by the values: objects are had as they were posted, what is posted as a
calculation becomes an object of its value, and functions and coercions are the same here and
there. -/
structure Services.Faithful (services : Services) (contextId : Bytes) (server : Server) :
    Prop where
  getIssObject : ∀ {id v}, server.object id = some v →
    services.getIssObject contextId id = .ok v
  postIssObject : ∀ v, ∃ id, services.postIssObject contextId .dynamic v = .ok id ∧
    server.object id = some v
  postCalculation : ∀ {request v}, Value server request v →
    ∃ id, services.postCalculation contextId request = .ok id ∧ server.object id = some v
  performLocalFunctionCalc : ∀ {account app name level vs v},
    server.apply account app name level vs = some v →
    services.performLocalFunctionCalc contextId account app name vs = .ok v
  coerceLocalCalcResult : ∀ {schema v w}, server.coerce schema v = some w →
    services.coerceLocalCalcResult contextId schema v = .ok w
  requestFromDynamic : ∀ {v request}, server.generated v = some request →
    services.requestFromDynamic v = .ok (genericCalc none request)

/-- The ID that is given for a submission is that of an object of its value. -/
def Faithful (submitter : Submitter) (contextId : Bytes) (server : Server) : Prop :=
  ∀ submissions submission id, submission.contextId = contextId →
    submitter submissions submission = .ok (some id) →
    ∀ v, server.object id = some v ↔ Value server submission.request v

end Cradle.Thinknode
