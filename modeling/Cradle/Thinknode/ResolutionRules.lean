import Cradle.Thinknode.CalcValue

/-!
# The resolution by values

What the resolution gives for a request follows from what it gives for its subrequests, one
rule for each kind of request.  A request from which substitution made a calculation with a
value resolves to that value, if the variables resolve to what was put in their place.
-/

namespace Cradle.Thinknode

/-! ## The resolution of closed calculations -/

section
variable {services : Services} {contextId : Bytes} {server : Server}
  {environment : Environment}

open Bounded

/-- The request resolves to `v` and to an object that is `v`. -/
structure Resolves (services : Services) (contextId : Bytes) (server : Server)
    (environment : Environment) (request : CalculationRequest) (v : Dynamic) : Prop where
  value : ∃ fuel, (resolveCalcToValue services contextId fuel environment request).Returns v
  object : ∃ id, server.object id = some v ∧
    ∃ fuel, (resolveCalcToIssObject services contextId fuel environment request).Returns id

theorem value_of_le {request : CalculationRequest} {v : Dynamic} {n m : ℕ} (hnm : n ≤ m)
    (h : (resolveCalcToValue services contextId n environment request).Returns v) :
    (resolveCalcToValue services contextId m environment request).Returns v :=
  run_of_le (fun n => (resolve_below n environment request).1) hnm _ h

theorem object_of_le {request : CalculationRequest} {id : Bytes} {n m : ℕ} (hnm : n ≤ m)
    (h : (resolveCalcToIssObject services contextId n environment request).Returns id) :
    (resolveCalcToIssObject services contextId m environment request).Returns id :=
  run_of_le (fun n => (resolve_below n environment request).2) hnm _ h

/-- What is posted becomes an object of its value. -/
theorem returns_postCalc (hservices : services.Faithful contextId server)
    {request : CalcRequest} {v : Dynamic} (h : Value server request v) :
    ∃ id, server.object id = some v ∧ (postCalc services contextId request).Returns id := by
  obtain ⟨id, hpost, hid⟩ := hservices.postCalculation h
  exact ⟨id, hid, returns_ofExcept.mpr hpost⟩

theorem returns_coerciveCall (hservices : services.Faithful contextId server)
    {schema : TypeInfo} {v w : Dynamic} (h : server.coerce schema v = some w) :
    (coerciveCall services contextId schema v).Returns w :=
  returns_ofExcept.mpr (hservices.coerceLocalCalcResult h)

namespace Resolves

variable {request : CalculationRequest} {v w : Dynamic} {schema : TypeInfo}

/-- The object is posted as a value. -/
theorem of_value (hservices : services.Faithful contextId server)
    (hvalue : ∃ fuel, (resolveCalcToValue services contextId fuel environment request).Returns v)
    (hobject : ∀ fuel, resolveCalcToIssObject services contextId (fuel + 1) environment request =
      resolveCalcToValue services contextId fuel environment request >>=
        postValue services contextId) :
    Resolves services contextId server environment request v := by
  obtain ⟨fuel, h⟩ := hvalue
  obtain ⟨id, hpost, hid⟩ := hservices.postIssObject v
  refine ⟨⟨fuel, h⟩, id, hid, fuel + 1, ?_⟩
  rw [hobject]
  exact h.bind (returns_ofExcept.mpr hpost)

/-- The object of a subcalculation is a reference of its value. -/
theorem recurse (h : Resolves services contextId server environment request v) :
    ∃ ref, (∃ fuel, (Thinknode.recurse
      (resolveCalcToIssObject services contextId fuel environment request)).Returns ref) ∧
        Value server ref v := by
  obtain ⟨id, hid, fuel, h⟩ := h.object
  exact ⟨.reference id, ⟨fuel, h.bind (returns_pure.mpr rfl)⟩, .reference hid⟩

theorem values {requests : List CalculationRequest} {vs : List Dynamic}
    (h : List.Forall₂ (Resolves services contextId server environment) requests vs) :
    ∃ fuel, (requests.mapM fun request =>
      resolveCalcToValue services contextId fuel environment request).Returns vs :=
  exists_mapM_returns (fun fuel request => (resolve_below fuel environment request).1)
    (h.imp fun _ _ h => h.value)

theorem refs {requests : List CalculationRequest} {vs : List Dynamic}
    (h : List.Forall₂ (Resolves services contextId server environment) requests vs) :
    ∃ refs, List.Forall₂ (Value server) refs vs ∧ ∃ fuel, (requests.mapM fun request =>
      Thinknode.recurse
        (resolveCalcToIssObject services contextId fuel environment request)).Returns refs := by
  obtain ⟨refs, hrefs, hvalues⟩ := h.exists_between fun _ _ h => h.recurse
  refine ⟨refs, hvalues, exists_mapM_returns (fun fuel request => ?_) hrefs⟩
  exact (resolve_below fuel environment request).2.bind fun _ => .refl _

theorem of_literal (hservices : services.Faithful contextId server) :
    Resolves services contextId server environment (.value v) v := by
  obtain ⟨id, hpost, hid⟩ := hservices.postIssObject v
  exact ⟨⟨1, returns_pure.mpr rfl⟩, id, hid, 1, returns_ofExcept.mpr hpost⟩

theorem of_reference (hservices : services.Faithful contextId server) {id : Bytes}
    (hid : server.object id = some v) :
    Resolves services contextId server environment (.reference id) v :=
  ⟨⟨1, returns_ofExcept.mpr (hservices.getIssObject hid)⟩, id, hid, 1, returns_pure.mpr rfl⟩

theorem of_function (hservices : services.Faithful contextId server)
    {account app name : Bytes} {host : Option ExecutionHostSelection} {level : Option ℤ}
    {args : List CalculationRequest} {vs : List Dynamic}
    (hargs : List.Forall₂ (Resolves services contextId server environment) args vs)
    (happly : server.apply account app name level vs = some v) :
    Resolves services contextId server environment
      (.function account app name host level args) v := by
  have hlocal : host ≠ some .thinknode → ∃ fuel, (resolveCalcToValue services contextId fuel
      environment (.function account app name host level args)).Returns v := by
    intro hhost
    obtain ⟨fuel, hvs⟩ := values hargs
    refine ⟨fuel + 1, ?_⟩
    rw [resolveCalcToValue, if_neg hhost]
    exact hvs.bind (returns_ofExcept.mpr (hservices.performLocalFunctionCalc happly))
  have hremote : host ≠ some .local → ∃ id, server.object id = some v ∧ ∃ fuel,
      (resolveCalcToIssObject services contextId fuel environment
        (.function account app name host level args)).Returns id := by
    intro hhost
    obtain ⟨refs, hvs, fuel, hrefs⟩ := refs hargs
    obtain ⟨hlength, hzip⟩ := Value.forall₂ hvs
    obtain ⟨id, hid, hpost⟩ := returns_postCalc hservices (.function hlength hzip happly)
    refine ⟨id, hid, fuel + 1, ?_⟩
    rw [resolveCalcToIssObject, if_neg hhost]
    exact hrefs.bind hpost
  by_cases hthinknode : host = some .thinknode
  · obtain ⟨id, hid, fuel, hobject⟩ := hremote (by simp [hthinknode])
    refine ⟨⟨fuel + 1, ?_⟩, id, hid, fuel, hobject⟩
    rw [resolveCalcToValue, if_pos hthinknode]
    exact hobject.bind (returns_ofExcept.mpr (hservices.getIssObject hid))
  · by_cases hhost : host = some .local
    · refine of_value hservices (hlocal hthinknode) fun fuel => ?_
      rw [resolveCalcToIssObject, if_pos hhost]
    · exact ⟨hlocal hthinknode, hremote hhost⟩

theorem of_array (hservices : services.Faithful contextId server)
    {items : List CalculationRequest} {itemSchema : TypeInfo} {vs ws : List Dynamic}
    (hitems : List.Forall₂ (Resolves services contextId server environment) items vs)
    (hcoerce : List.Forall₂ (fun v w => server.coerce itemSchema v = some w) vs ws) :
    Resolves services contextId server environment (.array items itemSchema) (.array ws) := by
  refine ⟨?_, ?_⟩
  · have hcoerced := (hitems.through hcoerce).imp (S := fun item w => ∃ fuel, (do
        coerciveCall services contextId itemSchema
          (← resolveCalcToValue services contextId fuel environment item)).Returns w) ?_
    · obtain ⟨fuel, hws⟩ := exists_mapM_returns (fun fuel item =>
        (resolve_below fuel environment item).1.bind fun _ => .refl _) hcoerced
      exact ⟨fuel + 1, hws.bind (returns_pure.mpr rfl)⟩
    · rintro item w ⟨v, ⟨⟨fuel, h⟩, -⟩, hw⟩
      exact ⟨fuel, h.bind (returns_coerciveCall hservices hw)⟩
  · obtain ⟨refs, hvs, fuel, hrefs⟩ := refs hitems
    obtain ⟨hlength, hzip⟩ := Value.forall₂ hvs
    obtain ⟨id, hid, hpost⟩ := returns_postCalc hservices (.array hlength hzip hcoerce)
    exact ⟨id, hid, fuel + 1, hrefs.bind hpost⟩

/-- Two subcalculations under one bound. -/
theorem both {request' : CalculationRequest} {v' : Dynamic}
    (h : Resolves services contextId server environment request v)
    (h' : Resolves services contextId server environment request' v') :
    (∃ fuel, (resolveCalcToValue services contextId fuel environment request).Returns v ∧
      (resolveCalcToValue services contextId fuel environment request').Returns v') ∧
      ∃ ref ref', Value server ref v ∧ Value server ref' v' ∧ ∃ fuel,
        (Thinknode.recurse
          (resolveCalcToIssObject services contextId fuel environment request)).Returns ref ∧
        (Thinknode.recurse
          (resolveCalcToIssObject services contextId fuel environment request')).Returns ref' := by
  obtain ⟨⟨n, hn⟩, id, hid, k, hk⟩ := h
  obtain ⟨⟨m, hm⟩, id', hid', l, hl⟩ := h'
  refine ⟨⟨max n m, value_of_le (Nat.le_max_left n m) hn, value_of_le (Nat.le_max_right n m) hm⟩,
    .reference id, .reference id', .reference hid, .reference hid', max k l, ?_, ?_⟩
  · exact (object_of_le (Nat.le_max_left k l) hk).bind (returns_pure.mpr rfl)
  · exact (object_of_le (Nat.le_max_right k l) hl).bind (returns_pure.mpr rfl)

theorem of_item (hservices : services.Faithful contextId server)
    {array index : CalculationRequest} {vs : List Dynamic} {i : ℤ}
    (harray : Resolves services contextId server environment array (.array vs))
    (hindex : Resolves services contextId server environment index (.integer i))
    (hi : 0 ≤ i) (hv : vs[i.toNat]? = some v) (hcoerce : server.coerce schema v = some w) :
    Resolves services contextId server environment (.item array index schema) w := by
  obtain ⟨⟨fuel, harray, hindex⟩, ref, ref', href, href', fuel', hobject, hobject'⟩ :=
    both harray hindex
  refine ⟨⟨fuel + 1, ?_⟩, ?_⟩
  · have hat : itemAt vs i = .ok v := by rw [itemAt, if_neg (Int.not_lt.mpr hi), hv]
    exact harray.bind (.bind (returns_ofExcept.mpr rfl) (hindex.bind
      (.bind (returns_ofExcept.mpr rfl) (.bind (returns_ofExcept.mpr hat)
        (returns_coerciveCall hservices hcoerce)))))
  · obtain ⟨id, hid, hpost⟩ := returns_postCalc hservices (.item href href' hi hv hcoerce)
    exact ⟨id, hid, fuel' + 1, hobject.bind (hobject'.bind hpost)⟩

theorem of_object (hservices : services.Faithful contextId server)
    {properties : List (Bytes × CalculationRequest)} {vs : List Dynamic}
    (hproperties : List.Forall₂ (fun property v =>
      Resolves services contextId server environment property.2 v) properties vs)
    (hcoerce : server.coerce schema (.map (Dynamic.assignFields
      ((properties.map fun property => .string property.1).zip vs))) = some w) :
    Resolves services contextId server environment (.object properties schema) w := by
  refine ⟨?_, ?_⟩
  · have hfields : List.Forall₂ (fun property field => ∃ fuel, (do return (Dynamic.string property.1,
          ← resolveCalcToValue services contextId fuel environment property.2) :
            Resolving (Dynamic × Dynamic)).Returns field)
        properties ((properties.map fun property => .string property.1).zip vs) := by
      clear hcoerce
      induction hproperties with
      | nil => exact .nil
      | cons h _ ih =>
          obtain ⟨fuel, h⟩ := h.value
          exact .cons ⟨fuel, h.bind (returns_pure.mpr rfl)⟩ ih
    obtain ⟨fuel, hfields⟩ := exists_mapM_returns (fun fuel property =>
      (resolve_below fuel environment property.2).1.bind fun _ => .refl _) hfields
    exact ⟨fuel + 1, hfields.bind (returns_coerciveCall hservices hcoerce)⟩
  · obtain ⟨refs, hrefs, hvs⟩ := hproperties.exists_between
      (S := fun property ref => property.1 = ref.1 ∧ ∃ fuel, (do return (property.1,
        ← Thinknode.recurse
          (resolveCalcToIssObject services contextId fuel environment property.2)) :
            Resolving (Bytes × CalcRequest)).Returns ref)
      (T := fun ref v => Value server ref.2 v) fun property v h => by
        obtain ⟨ref, ⟨fuel, hobject⟩, href⟩ := h.recurse
        exact ⟨(property.1, ref), ⟨rfl, fuel, hobject.bind (returns_pure.mpr rfl)⟩, href⟩
    have hnames := (hrefs.imp (S := fun property ref =>
      Dynamic.string property.1 = Dynamic.string ref.1) fun _ _ h => congrArg _ h.1).map_eq_map
    obtain ⟨fuel, hrefs⟩ := exists_mapM_returns (fun fuel property => by
      refine Below.bind (Below.bind ?_ fun _ => .refl _) fun _ => .refl _
      exact (resolve_below fuel environment property.2).2) (hrefs.imp fun _ _ h => h.2)
    have hvalue : Value server (.object refs schema) w :=
      .object hvs.length_eq (fun _ => (List.forall₂_iff_zip.mp hvs).2) (hnames ▸ hcoerce)
    obtain ⟨id, hid, hpost⟩ := returns_postCalc hservices hvalue
    exact ⟨id, hid, fuel + 1, hrefs.bind hpost⟩

theorem of_property (hservices : services.Faithful contextId server)
    {object field : CalculationRequest} {fields : List (Dynamic × Dynamic)} {s : Bytes}
    (hobject : Resolves services contextId server environment object (.map fields))
    (hfield : Resolves services contextId server environment field (.string s))
    (hv : Dynamic.findField fields (.string s) = some v)
    (hcoerce : server.coerce schema v = some w) :
    Resolves services contextId server environment (.property object field schema) w := by
  obtain ⟨⟨fuel, hmap, hname⟩, ref, ref', href, href', fuel', hobject, hobject'⟩ :=
    both hobject hfield
  refine ⟨⟨fuel + 1, ?_⟩, ?_⟩
  · have hat : propertyAt fields s = .ok v := by rw [propertyAt, hv]
    exact hmap.bind (.bind (returns_ofExcept.mpr rfl) (hname.bind
      (.bind (returns_ofExcept.mpr rfl) (.bind (returns_ofExcept.mpr hat)
        (returns_coerciveCall hservices hcoerce)))))
  · obtain ⟨id, hid, hpost⟩ := returns_postCalc hservices (.property href href' hv hcoerce)
    exact ⟨id, hid, fuel' + 1, hobject.bind (hobject'.bind hpost)⟩

theorem of_let {definitions : List (Bytes × CalculationRequest)} {body : CalculationRequest}
    (hbody : Resolves services contextId server (extend environment definitions) body v) :
    Resolves services contextId server environment (.let definitions body) v := by
  obtain ⟨⟨n, hn⟩, id, hid, m, hm⟩ := hbody
  exact ⟨⟨n + 1, hn⟩, id, hid, m + 1, hm⟩

theorem of_variable {name : Bytes} (hfind : Assoc.find name environment = some request)
    (h : Resolves services contextId server environment request v) :
    Resolves services contextId server environment (.variable name) v := by
  have hat : environment.at name = .ok request := by rw [Environment.at, hfind]
  obtain ⟨⟨n, hn⟩, id, hid, m, hm⟩ := h
  exact ⟨⟨n + 1, .bind (returns_ofExcept.mpr hat) hn⟩, id, hid, m + 1,
    .bind (returns_ofExcept.mpr hat) hm⟩

theorem of_meta (hservices : services.Faithful contextId server)
    {generator : CalculationRequest} {g : Dynamic} {generated : CalcRequest}
    (hgenerator : Resolves services contextId server environment generator g)
    (hgenerated : server.generated g = some generated) (hvalue : Value server generated v)
    (h : Resolves services contextId server environment (genericCalc none generated) v)
    (hcoerce : server.coerce schema v = some w) :
    Resolves services contextId server environment (.meta generator schema) w := by
  obtain ⟨⟨fuel, hg, hv⟩, -⟩ := both hgenerator h
  refine ⟨⟨fuel + 1, ?_⟩, ?_⟩
  · exact hg.bind (.bind (returns_ofExcept.mpr (hservices.requestFromDynamic hgenerated))
      (hv.bind (returns_coerciveCall hservices hcoerce)))
  · obtain ⟨ref, ⟨fuel, hobject⟩, href⟩ := hgenerator.recurse
    obtain ⟨id, hid, hpost⟩ := returns_postCalc hservices (.meta href hgenerated hvalue hcoerce)
    exact ⟨id, hid, fuel + 1, hobject.bind hpost⟩

theorem of_cast (hservices : services.Faithful contextId server) {object : CalculationRequest}
    (h : Resolves services contextId server environment object v)
    (hcoerce : server.coerce schema v = some w) :
    Resolves services contextId server environment (.cast schema object) w := by
  obtain ⟨fuel, hv⟩ := h.value
  refine ⟨⟨fuel + 1, hv.bind (returns_coerciveCall hservices hcoerce)⟩, ?_⟩
  obtain ⟨ref, ⟨fuel, hobject⟩, href⟩ := h.recurse
  obtain ⟨id, hid, hpost⟩ := returns_postCalc hservices (.cast href hcoerce)
  exact ⟨id, hid, fuel + 1, hobject.bind hpost⟩

end Resolves

/-- The variables of `request` that were substituted resolve to what was put in for them. -/
def ResolvesSubstitutions (services : Services) (contextId : Bytes) (server : Server)
    (environment : Environment) (substitutions : Substitutions) (request : CalcRequest) : Prop :=
  ∀ name, request.Visits (.variable name) → ∀ substitution,
    Assoc.find name substitutions = some substitution → ∃ id, substitution = .reference id ∧
      ∀ v, server.object id = some v →
        Resolves services contextId server environment (.variable name) v

theorem ResolvesSubstitutions.child {substitutions : Substitutions} {request child : CalcRequest}
    (h : ResolvesSubstitutions services contextId server environment substitutions request)
    (hchild : child ∈ request.substituted) :
    ResolvesSubstitutions services contextId server environment substitutions child :=
  fun name hname => h name (.head hchild hname)

theorem ResolvesSubstitutions.of_closed {substitutions : Substitutions} {request : CalcRequest}
    (h : request.Closed) :
    ResolvesSubstitutions services contextId server environment substitutions request := by
  intro name hname
  cases (h _ hname.contains).1

/-- Only references were put in. -/
theorem ResolvesSubstitutions.not_found {substitutions : Substitutions} {name : Bytes}
    {request : CalcRequest} (h : ResolvesSubstitutions services contextId server environment
      substitutions (.variable name)) (hrequest : ∀ id, request ≠ .reference id) :
    Assoc.find name substitutions ≠ some request := by
  intro hfind
  obtain ⟨id, heq, -⟩ := h name .refl request hfind
  exact hrequest id heq

/-- The parts of a request resolve if they do so one by one. -/
theorem resolves_parts {substitutions : Substitutions} {parts parts' : List CalcRequest}
    {vs : List Dynamic} (host : Option ExecutionHostSelection)
    (hparts : List.Forall₂ (fun part part' => substituteVariables substitutions part = .ok part')
      parts parts')
    (hvars : ∀ part ∈ parts,
      ResolvesSubstitutions services contextId server environment substitutions part)
    (hlength : parts'.length = vs.length)
    (h : ∀ p ∈ parts'.zip vs, ∀ part, substituteVariables substitutions part = .ok p.1 →
      ResolvesSubstitutions services contextId server environment substitutions part →
      Resolves services contextId server environment (genericCalc host part) p.2) :
    List.Forall₂ (Resolves services contextId server environment)
      (parts.map (genericCalc host)) vs := by
  rw [List.forall₂_map_left_iff]
  have hvalues := List.forall₂_iff_zip.mpr ⟨hlength, fun hmem => h _ hmem⟩
  refine (((List.forall₂_and_left _ _).mpr ⟨hvars, hparts⟩).through hvalues).imp ?_
  rintro part v ⟨part', ⟨hpart, hsubst⟩, hvalue⟩
  exact hvalue part hsubst hpart

/-- A request resolves to the value of what is left after substitution. -/
theorem resolves_of_value (hservices : services.Faithful contextId server)
    {substitutions : Substitutions} {request request' : CalcRequest} {v : Dynamic}
    {host : Option ExecutionHostSelection} (hvalue : Value server request' v)
    (hsubst : substituteVariables substitutions request = .ok request')
    (hvars : ResolvesSubstitutions services contextId server environment substitutions request) :
    Resolves services contextId server environment (genericCalc host request) v := by
  induction hvalue generalizing request host with
  | reference hid =>
      cases substituteVariables_eq_ok.mp hsubst with
      | reference => exact .of_reference hservices hid
      | «variable» hfind =>
          obtain ⟨id, heq, hresolves⟩ := hvars _ .refl _ hfind
          cases heq
          exact hresolves _ hid
  | value =>
      cases substituteVariables_eq_ok.mp hsubst with
      | value => exact .of_literal hservices
      | «variable» hfind => exact absurd hfind (hvars.not_found (by simp))
  | function hlength hargs happly ih =>
      cases substituteVariables_eq_ok.mp hsubst with
      | function hparts =>
          rw [genericCalc, genericCalcs_eq_map]
          exact .of_function hservices (resolves_parts host hparts (fun _ => hvars.child) hlength
            fun p hp part => ih p hp) happly
      | «variable» hfind => exact absurd hfind (hvars.not_found (by simp))
  | array hlength hitems hcoerce ih =>
      cases substituteVariables_eq_ok.mp hsubst with
      | array hparts =>
          rw [genericCalc, genericCalcs_eq_map]
          exact .of_array hservices (resolves_parts host hparts (fun _ => hvars.child) hlength
            fun p hp part => ih p hp) hcoerce
      | «variable» hfind => exact absurd hfind (hvars.not_found (by simp))
  | @object properties' schema vs w hlength hproperties hcoerce ih =>
      cases substituteVariables_eq_ok.mp hsubst with
      | @object properties _ _ hparts =>
          have hnames := (hparts.imp (S := fun p p' =>
            Dynamic.string p.1 = Dynamic.string p'.1) fun _ _ h => congrArg _ h.1).map_eq_map
          have hsnd : List.Forall₂ (fun part part' =>
              substituteVariables substitutions part = .ok part')
              (properties.map Prod.snd) (properties'.map Prod.snd) := by
            simpa using hparts.imp fun _ _ h => h.2
          have hvalues := resolves_parts host hsnd (fun _ => hvars.child) (by simpa using hlength)
            fun p hp part => by
              rw [List.zip_map_left, List.mem_map] at hp
              obtain ⟨q, hq, rfl⟩ := hp
              exact ih q hq
          rw [genericCalc, genericEntries_eq_map]
          have hresolves : List.Forall₂ (fun property v =>
              Resolves services contextId server environment property.2 v)
              (properties.map fun entry => (entry.1, genericCalc host entry.2)) vs := by
            simpa using hvalues
          exact .of_object hservices hresolves (by simpa [Function.comp_def, hnames] using hcoerce)
      | «variable» hfind => exact absurd hfind (hvars.not_found (by simp))
  | item harray hindex hi hv hcoerce ih ih' =>
      cases substituteVariables_eq_ok.mp hsubst with
      | item hpart =>
          have hclosed := hindex.closed
          exact .of_item hservices (ih hpart (hvars.child List.mem_cons_self))
            (ih' (CalcRequest.substituteVariables_of_closed hclosed) (.of_closed hclosed))
            hi hv hcoerce
      | «variable» hfind => exact absurd hfind (hvars.not_found (by simp))
  | property hobject hfield hv hcoerce ih ih' =>
      cases substituteVariables_eq_ok.mp hsubst with
      | property hpart =>
          have hclosed := hfield.closed
          exact .of_property hservices (ih hpart (hvars.child List.mem_cons_self))
            (ih' (CalcRequest.substituteVariables_of_closed hclosed) (.of_closed hclosed))
            hv hcoerce
      | «variable» hfind => exact absurd hfind (hvars.not_found (by simp))
  | «meta» hgenerator hgenerated hv hcoerce ih ih' =>
      cases substituteVariables_eq_ok.mp hsubst with
      | «meta» hpart =>
          have hclosed := hv.closed
          exact .of_meta hservices (ih hpart (hvars.child List.mem_cons_self)) hgenerated hv
            (ih' (CalcRequest.substituteVariables_of_closed hclosed) (.of_closed hclosed)) hcoerce
      | «variable» hfind => exact absurd hfind (hvars.not_found (by simp))
  | cast hobject hcoerce ih =>
      cases substituteVariables_eq_ok.mp hsubst with
      | cast hpart =>
          exact .of_cast hservices (ih hpart (hvars.child List.mem_cons_self)) hcoerce
      | «variable» hfind => exact absurd hfind (hvars.not_found (by simp))

/-- The resolution comes to an end, to whichever of the two the request is resolved. -/
def EndsWithin (services : Services) (contextId : Bytes) (environment : Environment) (fuel : ℕ)
    (request : CalculationRequest) : Prop :=
  (resolveCalcToValue services contextId fuel environment request).Ends ∧
    (resolveCalcToIssObject services contextId fuel environment request).Ends

def Terminates (services : Services) (contextId : Bytes) (environment : Environment)
    (request : CalculationRequest) : Prop :=
  ∃ fuel, EndsWithin services contextId environment fuel request

theorem EndsWithin.mono {request : CalculationRequest} {n m : ℕ} (hnm : n ≤ m)
    (h : EndsWithin services contextId environment n request) :
    EndsWithin services contextId environment m request :=
  ⟨h.1.of_below (run_of_le (fun n => (resolve_below n environment request).1) hnm),
    h.2.of_below (run_of_le (fun n => (resolve_below n environment request).2) hnm)⟩

/-- The resolution goes through the subrequests once, unless requests are generated. -/
theorem terminates_of_children {request : CalcRequest} {host : Option ExecutionHostSelection}
    (hvar : request.isVariable = false) (hlet : request.isLet = false)
    (hmeta : request.isMeta = false) (hchildren : ∀ child ∈ request.children,
      Terminates services contextId environment (genericCalc host child)) :
    Terminates services contextId environment (genericCalc host request) := by
  obtain ⟨n, hn⟩ := exists_bound (P := fun n child =>
    EndsWithin services contextId environment n (genericCalc host child))
    (fun _ _ _ => EndsWithin.mono) hchildren
  have hrecurse : ∀ child ∈ request.children, (recurse (resolveCalcToIssObject services contextId
      n environment (genericCalc host child))).Ends :=
    fun child hchild => (hn child hchild).2.bind fun _ _ => ends_pure
  cases request with
  | «variable» name => cases hvar
  | «let» definitions body => cases hlet
  | «meta» generator schema => cases hmeta
  | reference id => exact ⟨1, rfl, rfl⟩
  | value v => exact ⟨1, rfl, rfl⟩
  | function account app name level args =>
      rw [genericCalc, genericCalcs_eq_map]
      have hlocal : host ≠ some .thinknode → (resolveCalcToValue services contextId (n + 1)
          environment (.function account app name host level (args.map (genericCalc host)))).Ends := by
        intro hhost
        rw [resolveCalcToValue, if_neg hhost]
        refine (mapM_ends ?_).bind fun _ _ => ends_ofExcept _
        exact List.forall_mem_map.mpr fun arg harg => (hn arg harg).1
      have hremote : host ≠ some .local → (resolveCalcToIssObject services contextId (n + 1)
          environment (.function account app name host level (args.map (genericCalc host)))).Ends := by
        intro hhost
        rw [resolveCalcToIssObject, if_neg hhost]
        refine (mapM_ends ?_).bind fun _ _ => ends_ofExcept _
        exact List.forall_mem_map.mpr hrecurse
      have hle : n + 1 ≤ n + 1 + 1 := Nat.le_succ _
      refine ⟨n + 1 + 1, ?_, ?_⟩
      · by_cases hhost : host = some .thinknode
        · rw [resolveCalcToValue, if_pos hhost]
          exact (hremote (by simp [hhost])).bind fun _ _ => ends_ofExcept _
        · exact (hlocal hhost).of_below
            (run_of_le (fun n => (resolve_below n environment _).1) hle)
      · by_cases hhost : host = some .local
        · rw [resolveCalcToIssObject, if_pos hhost]
          exact (hlocal (by simp [hhost])).bind fun _ _ => ends_ofExcept _
        · exact (hremote hhost).of_below
            (run_of_le (fun n => (resolve_below n environment _).2) hle)
  | array items itemSchema =>
      rw [genericCalc, genericCalcs_eq_map]
      refine ⟨n + 1, (mapM_ends ?_).bind fun _ _ => ends_pure,
        (mapM_ends ?_).bind fun _ _ => ends_ofExcept _⟩
      · exact List.forall_mem_map.mpr fun item hitem =>
          (hn item hitem).1.bind fun _ _ => ends_ofExcept _
      · exact List.forall_mem_map.mpr hrecurse
  | item array index schema =>
      have harray := hn array (by simp)
      have hindex := hn index (by simp)
      refine ⟨n + 1, ?_, ?_⟩
      · exact harray.1.bind fun _ _ => (ends_ofExcept _).bind fun _ _ => hindex.1.bind
          fun _ _ => (ends_ofExcept _).bind fun _ _ => (ends_ofExcept _).bind
            fun _ _ => ends_ofExcept _
      · exact (hrecurse array (by simp)).bind fun _ _ => (hrecurse index (by simp)).bind
          fun _ _ => ends_ofExcept _
  | object properties schema =>
      rw [genericCalc, genericEntries_eq_map]
      refine ⟨n + 1, (mapM_ends ?_).bind fun _ _ => ends_ofExcept _,
        (mapM_ends ?_).bind fun _ _ => ends_ofExcept _⟩
      · exact List.forall_mem_map.mpr fun property hproperty =>
          (hn property.2 (List.mem_map_of_mem hproperty)).1.bind fun _ _ => ends_pure
      · exact List.forall_mem_map.mpr fun property hproperty =>
          (hrecurse property.2 (List.mem_map_of_mem hproperty)).bind fun _ _ => ends_pure
  | property object field schema =>
      have hobject := hn object (by simp)
      have hfield := hn field (by simp)
      refine ⟨n + 1, ?_, ?_⟩
      · exact hobject.1.bind fun _ _ => (ends_ofExcept _).bind fun _ _ => hfield.1.bind
          fun _ _ => (ends_ofExcept _).bind fun _ _ => (ends_ofExcept _).bind
            fun _ _ => ends_ofExcept _
      · exact (hrecurse object (by simp)).bind fun _ _ => (hrecurse field (by simp)).bind
          fun _ _ => ends_ofExcept _
  | cast schema object =>
      exact ⟨n + 1, (hn object (by simp)).1.bind fun _ _ => ends_ofExcept _,
        (hrecurse object (by simp)).bind fun _ _ => ends_ofExcept _⟩

/-- The resolution of a request ends if that of the variables in it does. -/
theorem terminates_of_plain {request : CalcRequest} {host : Option ExecutionHostSelection}
    (hplain : request.Plain) (hlet : ∀ part, request.Visits part → part.isLet = false)
    (hvars : ∀ name, request.Visits (.variable name) →
      Terminates services contextId environment (.variable name)) :
    Terminates services contextId environment (genericCalc host request) := by
  induction request using CalcRequest.childInduction with
  | step request ih =>
      obtain ⟨hcopies, hmeta⟩ := hplain
      by_cases hvar : ∃ name, request = .variable name
      · obtain ⟨name, rfl⟩ := hvar
        exact hvars name .refl
      · have hvar : request.isVariable = false := by
          cases request <;> first | rfl | exact absurd ⟨_, rfl⟩ hvar
        refine terminates_of_children hvar (hlet _ .refl) (hmeta _ .refl) fun child hchild => ?_
        have hmeta' : ∀ part, child.Contains part → part.isMeta = false :=
          fun part hpart => hmeta part (.head hchild hpart)
        rcases (CalcRequest.mem_children_iff (hlet _ .refl)).mp hchild with hsub | hcopied
        · exact ih child hchild ⟨(CalcRequest.copiesClosed_iff.mp hcopies).2 child hsub, hmeta'⟩
            (fun part hpart => hlet part (.head hsub hpart))
            fun name hname => hvars name (.head hsub hname)
        · have hclosed := (CalcRequest.copiesClosed_iff.mp hcopies).1 child hcopied
          refine ih child hchild ⟨hclosed.copiesClosed, hmeta'⟩
            (fun part hpart => (hclosed part hpart.contains).2) fun name hname => ?_
          cases (hclosed _ hname.contains).1

theorem Terminates.of_let {definitions : List (Bytes × CalculationRequest)}
    {body : CalculationRequest}
    (hbody : Terminates services contextId (extend environment definitions) body) :
    Terminates services contextId environment (.let definitions body) := by
  obtain ⟨n, hn⟩ := hbody
  exact ⟨n + 1, hn⟩

theorem Terminates.of_variable {name : Bytes} {request : CalculationRequest}
    (hfind : Assoc.find name environment = some request)
    (h : Terminates services contextId environment request) :
    Terminates services contextId environment (.variable name) := by
  have hat : environment.at name = .ok request := by rw [Environment.at, hfind]
  obtain ⟨n, hvalue, hobject⟩ := h
  have hrequest : ∀ {request'}, (Bounded.ofExcept (environment.at name)).Returns request' →
      request' = request := fun h => (Except.ok.inj (hat.symm.trans (returns_ofExcept.mp h))).symm
  refine ⟨n + 1, ?_, ?_⟩
  · exact (ends_ofExcept _).bind fun _ h => hrequest h ▸ hvalue
  · exact (ends_ofExcept _).bind fun _ h => hrequest h ▸ hobject

end

end Cradle.Thinknode
