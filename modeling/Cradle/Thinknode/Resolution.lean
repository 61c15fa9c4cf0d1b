import Cradle.Lib.Bounded
import Cradle.Thinknode.CalcRequest
import Cradle.Typing.WellFormed

/-!
# Resolution of calculation requests

The websocket server resolves a calculation itself, to a value or to an object of the ISS.
A LET puts its definitions, as they are, into an environment of requests; where a VARIABLE is
found its request is resolved in the environment of the VARIABLE.  What the server asks of
other services is a parameter, and the recursion runs on fuel.
-/

namespace Cradle.Thinknode

/-- `execution_host_selection`. -/
inductive ExecutionHostSelection
  | any
  | thinknode
  | «local»
  deriving DecidableEq

/-- `lambda_function`, which is compared by its ID. -/
structure LambdaFunction where
  id : Bytes

/-- `calculation_request`. -/
inductive CalculationRequest
  | reference (id : Bytes)
  | value (v : Dynamic)
  | lambda (function : LambdaFunction) (args : List CalculationRequest)
  | function (account app name : Bytes) (host : Option ExecutionHostSelection)
      (level : Option ℤ) (args : List CalculationRequest)
  | array (items : List CalculationRequest) (itemSchema : TypeInfo)
  | item (array index : CalculationRequest) (schema : TypeInfo)
  | object (properties : List (Bytes × CalculationRequest)) (schema : TypeInfo)
  | property (object field : CalculationRequest) (schema : TypeInfo)
  | let (definitions : List (Bytes × CalculationRequest)) (body : CalculationRequest)
  | variable (name : Bytes)
  | «meta» (generator : CalculationRequest) (schema : TypeInfo)
  | cast (schema : TypeInfo) (object : CalculationRequest)

mutual
/-- `as_generic_calc` with the host that it selects for functions. -/
def genericCalc (host : Option ExecutionHostSelection) : CalcRequest → CalculationRequest
  | .reference id => .reference id
  | .value v => .value v
  | .function account app name level args =>
      .function account app name host level (genericCalcs host args)
  | .array items itemSchema => .array (genericCalcs host items) itemSchema
  | .item array index schema => .item (genericCalc host array) (genericCalc host index) schema
  | .object properties schema => .object (genericEntries host properties) schema
  | .property object field schema =>
      .property (genericCalc host object) (genericCalc host field) schema
  | .let definitions body => .let (genericEntries host definitions) (genericCalc host body)
  | .variable name => .variable name
  | .meta generator schema => .meta (genericCalc host generator) schema
  | .cast schema object => .cast schema (genericCalc host object)
/-- `map(as_generic_calc, …)` on a vector. -/
def genericCalcs (host : Option ExecutionHostSelection) :
    List CalcRequest → List CalculationRequest
  | [] => []
  | request :: requests => genericCalc host request :: genericCalcs host requests
/-- `map(as_generic_calc, …)` on a map. -/
def genericEntries (host : Option ExecutionHostSelection) :
    List (Bytes × CalcRequest) → List (Bytes × CalculationRequest)
  | [] => []
  | (name, request) :: entries => (name, genericCalc host request) :: genericEntries host entries
end

/-- `as_generic_calc`. -/
def asGenericCalc (request : CalcRequest) : CalculationRequest :=
  genericCalc (some .thinknode) request

theorem genericCalcs_eq_map (host : Option ExecutionHostSelection) (requests : List CalcRequest) :
    genericCalcs host requests = requests.map (genericCalc host) := by
  induction requests with
  | nil => rfl
  | cons request requests ih => rw [genericCalcs, ih, List.map_cons]

theorem genericEntries_eq_map (host : Option ExecutionHostSelection)
    (entries : List (Bytes × CalcRequest)) :
    genericEntries host entries = entries.map fun entry => (entry.1, genericCalc host entry.2) := by
  induction entries with
  | nil => rfl
  | cons entry entries ih => rw [genericEntries, ih, List.map_cons]

/-- What the resolution throws, or what the services throw. -/
inductive ResolutionException
  | typeMismatch (expectedValueType actualValueType : ValueType)
  | negativeOverflow
  | outOfRange
  | service (what : Bytes)

/-- What the resolution calls. -/
structure Services where
  getIssObject : (contextId objectId : Bytes) → Except ResolutionException Dynamic
  postIssObject : (contextId : Bytes) → TypeInfo → Dynamic → Except ResolutionException Bytes
  postCalculation : (contextId : Bytes) → CalcRequest → Except ResolutionException Bytes
  performLocalFunctionCalc : (contextId account app name : Bytes) → List Dynamic →
    Except ResolutionException Dynamic
  performLambdaCalc : LambdaFunction → List Dynamic → Except ResolutionException Dynamic
  coerceLocalCalcResult : (contextId : Bytes) → TypeInfo → Dynamic →
    Except ResolutionException Dynamic
  /-- `from_dynamic<calculation_request>`. -/
  requestFromDynamic : Dynamic → Except ResolutionException CalculationRequest

abbrev Resolving := Bounded ResolutionException

abbrev Environment := List (Bytes × CalculationRequest)

/-- The environment with the definitions of a LET. -/
def extend (environment : Environment) (definitions : List (Bytes × CalculationRequest)) :
    Environment :=
  definitions.foldl (fun extended v => Assoc.assign v.1 v.2 extended) environment

/-- `environment.at(name)`. -/
def Environment.at (environment : Environment) (name : Bytes) :
    Except ResolutionException CalculationRequest :=
  match Assoc.find name environment with
  | some request => .ok request
  | none => .error .outOfRange

/-- `cast<dynamic_array>`. -/
def castArray : Dynamic → Except ResolutionException (List Dynamic)
  | .array items => .ok items
  | value => .error (.typeMismatch .array value.type)

/-- `cast<dynamic_map>`. -/
def castMap : Dynamic → Except ResolutionException (List (Dynamic × Dynamic))
  | .map fields => .ok fields
  | value => .error (.typeMismatch .map value.type)

/-- `cast<integer>`. -/
def castInteger : Dynamic → Except ResolutionException ℤ
  | .integer i => .ok i
  | value => .error (.typeMismatch .integer value.type)

/-- `cast<string>`. -/
def castString : Dynamic → Except ResolutionException Bytes
  | .string s => .ok s
  | value => .error (.typeMismatch .string value.type)

/-- `items.at(boost::numeric_cast<size_t>(index))`. -/
def itemAt (items : List Dynamic) (index : ℤ) : Except ResolutionException Dynamic :=
  if index < 0 then .error .negativeOverflow
  else match items[index.toNat]? with
    | some item => .ok item
    | none => .error .outOfRange

/-- `fields.at(dynamic(field))`. -/
def propertyAt (fields : List (Dynamic × Dynamic)) (field : Bytes) :
    Except ResolutionException Dynamic :=
  match Dynamic.findField fields (.string field) with
  | some property => .ok property
  | none => .error .outOfRange

section
variable (services : Services) (contextId : Bytes)

/-- `coercive_call`. -/
def coerciveCall (schema : TypeInfo) (value : Dynamic) : Resolving Dynamic :=
  .ofExcept (services.coerceLocalCalcResult contextId schema value)

/-- `post_calc`. -/
def postCalc (request : CalcRequest) : Resolving Bytes :=
  .ofExcept (services.postCalculation contextId request)

/-- `post_value`. -/
def postValue (value : Dynamic) : Resolving Bytes :=
  .ofExcept (services.postIssObject contextId .dynamic value)

/-- `recurse`, on the object of a subcalculation. -/
def recurse (subcalc : Resolving Bytes) : Resolving CalcRequest := do
  return .reference (← subcalc)

mutual
/-- `resolve_calc_to_value`. -/
def resolveCalcToValue : ℕ → Environment → CalculationRequest → Resolving Dynamic
  | 0, _, _ => .exhausted
  | fuel + 1, environment, request =>
    match request with
    | .reference id => .ofExcept (services.getIssObject contextId id)
    | .value v => pure v
    | .lambda function args => do
        let argValues ← args.mapM fun arg => resolveCalcToValue fuel environment arg
        .ofExcept (services.performLambdaCalc function argValues)
    | .function account app name host _ args =>
        if host = some .thinknode then do
          let id ← resolveCalcToIssObject fuel environment request
          .ofExcept (services.getIssObject contextId id)
        else do
          let argValues ← args.mapM fun arg => resolveCalcToValue fuel environment arg
          .ofExcept (services.performLocalFunctionCalc contextId account app name argValues)
    | .array items itemSchema => do
        let values ← items.mapM fun item => do
          coerciveCall services contextId itemSchema (← resolveCalcToValue fuel environment item)
        return .array values
    | .item array index schema => do
        let items ← .ofExcept (castArray (← resolveCalcToValue fuel environment array))
        let i ← .ofExcept (castInteger (← resolveCalcToValue fuel environment index))
        coerciveCall services contextId schema (← .ofExcept (itemAt items i))
    | .object properties schema => do
        let fields ← properties.mapM fun property => do
          return (Dynamic.string property.1, ← resolveCalcToValue fuel environment property.2)
        coerciveCall services contextId schema (.map (Dynamic.assignFields fields))
    | .property object field schema => do
        let fields ← .ofExcept (castMap (← resolveCalcToValue fuel environment object))
        let name ← .ofExcept (castString (← resolveCalcToValue fuel environment field))
        coerciveCall services contextId schema (← .ofExcept (propertyAt fields name))
    | .let definitions body =>
        resolveCalcToValue fuel (extend environment definitions) body
    | .variable name => do
        resolveCalcToValue fuel environment (← .ofExcept (environment.at name))
    | .meta generator schema => do
        let generatedRequest ←
          .ofExcept (services.requestFromDynamic (← resolveCalcToValue fuel environment generator))
        coerciveCall services contextId schema
          (← resolveCalcToValue fuel environment generatedRequest)
    | .cast schema object => do
        coerciveCall services contextId schema (← resolveCalcToValue fuel environment object)
/-- `resolve_calc_to_iss_object`. -/
def resolveCalcToIssObject : ℕ → Environment → CalculationRequest → Resolving Bytes
  | 0, _, _ => .exhausted
  | fuel + 1, environment, request =>
    match request with
    | .reference id => pure id
    | .value v => postValue services contextId v
    | .lambda _ _ => do
        postValue services contextId (← resolveCalcToValue fuel environment request)
    | .function account app name host level args =>
        if host = some .local then do
          postValue services contextId (← resolveCalcToValue fuel environment request)
        else do
          let subtasks ← args.mapM fun arg =>
            recurse (resolveCalcToIssObject fuel environment arg)
          postCalc services contextId (.function account app name level subtasks)
    | .array items itemSchema => do
        let subtasks ← items.mapM fun item =>
          recurse (resolveCalcToIssObject fuel environment item)
        postCalc services contextId (.array subtasks itemSchema)
    | .item array index schema => do
        let array ← recurse (resolveCalcToIssObject fuel environment array)
        let index ← recurse (resolveCalcToIssObject fuel environment index)
        postCalc services contextId (.item array index schema)
    | .object properties schema => do
        let properties ← properties.mapM fun property => do
          return (property.1, ← recurse (resolveCalcToIssObject fuel environment property.2))
        postCalc services contextId (.object properties schema)
    | .property object field schema => do
        let object ← recurse (resolveCalcToIssObject fuel environment object)
        let field ← recurse (resolveCalcToIssObject fuel environment field)
        postCalc services contextId (.property object field schema)
    | .let definitions body =>
        resolveCalcToIssObject fuel (extend environment definitions) body
    | .variable name => do
        resolveCalcToIssObject fuel environment (← .ofExcept (environment.at name))
    | .meta generator schema => do
        let generator ← recurse (resolveCalcToIssObject fuel environment generator)
        postCalc services contextId (.meta generator schema)
    | .cast schema object => do
        let object ← recurse (resolveCalcToIssObject fuel environment object)
        postCalc services contextId (.cast schema object)
end

end

/-! ## Larger bounds -/

section
variable {services : Services} {contextId : Bytes}

open Bounded

/-- A larger bound gives what the smaller one gave. -/
theorem resolve_below (fuel : ℕ) (environment : Environment) (request : CalculationRequest) :
    Below (resolveCalcToValue services contextId fuel environment request)
        (resolveCalcToValue services contextId (fuel + 1) environment request) ∧
      Below (resolveCalcToIssObject services contextId fuel environment request)
        (resolveCalcToIssObject services contextId (fuel + 1) environment request) := by
  induction fuel generalizing environment request with
  | zero => exact ⟨below_exhausted _, below_exhausted _⟩
  | succ fuel ih =>
      have hvalue := fun environment request => (ih environment request).1
      have hobject := fun environment request => (ih environment request).2
      have hrecurse := fun environment request => Below.bind (hobject environment request)
        fun id => Below.refl (pure (CalcRequest.reference id))
      cases request with
      | reference id => exact ⟨.refl _, .refl _⟩
      | value v => exact ⟨.refl _, .refl _⟩
      | lambda function args =>
          exact ⟨(mapM_below fun arg => hvalue environment arg).bind fun _ => .refl _,
            (hvalue environment _).bind fun _ => .refl _⟩
      | function account app name host level args =>
          refine ⟨?_, ?_⟩
          · rw [resolveCalcToValue, resolveCalcToValue]
            split
            · exact (hobject environment _).bind fun _ => .refl _
            · exact (mapM_below fun arg => hvalue environment arg).bind fun _ => .refl _
          · rw [resolveCalcToIssObject, resolveCalcToIssObject]
            split
            · exact (hvalue environment _).bind fun _ => .refl _
            · exact (mapM_below fun _ => hrecurse environment _).bind fun _ => .refl _
      | array items itemSchema =>
          exact ⟨(mapM_below fun item => (hvalue environment item).bind fun _ => .refl _).bind
            fun _ => .refl _, (mapM_below fun _ => hrecurse environment _).bind fun _ => .refl _⟩
      | item array index schema =>
          exact ⟨(hvalue environment array).bind fun _ => (Below.refl _).bind fun _ =>
              (hvalue environment index).bind fun _ => .refl _,
            (hrecurse environment array).bind fun _ => (hrecurse environment index).bind
              fun _ => .refl _⟩
      | object properties schema =>
          refine ⟨(mapM_below fun property => ?_).bind fun _ => .refl _,
            (mapM_below fun property => ?_).bind fun _ => .refl _⟩
          · exact (hvalue environment property.2).bind fun _ => .refl _
          · exact (hrecurse environment property.2).bind fun _ => .refl _
      | property object field schema =>
          exact ⟨(hvalue environment object).bind fun _ => (Below.refl _).bind fun _ =>
              (hvalue environment field).bind fun _ => .refl _,
            (hrecurse environment object).bind fun _ => (hrecurse environment field).bind
              fun _ => .refl _⟩
      | «let» definitions body => exact ⟨hvalue _ body, hobject _ body⟩
      | «variable» name =>
          exact ⟨(Below.refl _).bind fun request => hvalue environment request,
            (Below.refl _).bind fun request => hobject environment request⟩
      | «meta» generator schema =>
          exact ⟨(hvalue environment generator).bind fun _ => (Below.refl _).bind
              fun request => (hvalue environment request).bind fun _ => .refl _,
            (hrecurse environment generator).bind fun _ => .refl _⟩
      | cast schema object =>
          exact ⟨(hvalue environment object).bind fun _ => .refl _,
            (hrecurse environment object).bind fun _ => .refl _⟩

end

end Cradle.Thinknode
