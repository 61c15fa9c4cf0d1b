import Mathlib.Data.Int.Notation
import Mathlib.Data.Nat.Notation
import Mathlib.Tactic.TypeStar

/-!
# Requests

A request is a tree: a function with its arguments, each a plain value or a request
again.  Its uuid stands for the function, so requests are compared by their types,
uuids and arguments (`RequestId`), never by the functions themselves.

Values of all C++ types form one type `V`, with `typeOf` for the C++ type of a value;
values are compared with `==`, taken to be equality.  Containment, proxies and
introspection tracking do not take part in what a request resolves to and are left
out; so is the C++ type of the function, which the uuid determines.
-/

namespace Cradle.Resolve

/-! ## Caching levels -/

/-- `caching_level_type`. -/
inductive CachingLevel
  | none | memory | full | memoryVb | fullVb
  deriving DecidableEq, Repr

namespace CachingLevel

def isUncached (level : CachingLevel) : Bool := level = .none

def isMemoryCached (level : CachingLevel) : Bool := level = .memory ∨ level = .memoryVb

def isValueBased (level : CachingLevel) : Bool := level = .memoryVb ∨ level = .fullVb

def toCompositionBased : CachingLevel → CachingLevel
  | .memoryVb => .memory
  | .fullVb => .full
  | level => level

/-- `level_exts` of `do_finalize`. -/
def ext : CachingLevel → List Char
  | .none => "+none".toList
  | .memory => "+mem".toList
  | .full => "+full".toList
  | .memoryVb => "+mem_vb".toList
  | .fullVb => "+full_vb".toList

end CachingLevel

/-! ## Uuids -/

/-- The exceptions that are told apart: a retrier acts on `http_request_failure` only. -/
inductive Exn
  | httpRequestFailure
  | uuidError (what : String)
  | logicError (what : String)
  | other (what : String)
  deriving DecidableEq, Repr

def Exn.isHttpRequestFailure (e : Exn) : Bool := e = .httpRequestFailure

/-- `request_uuid`.  `base` is its `str_`: the full string if `finalized`, else what the
extensions are added to. -/
structure RequestUuid where
  base : List Char
  finalized : Bool := false
  level : Option CachingLevel := none
  flattened : Bool := false
  isProxy : Bool := false
  deriving DecidableEq, Repr

namespace RequestUuid

/-- The constructor from a base string. -/
def ofBase (base : List Char) : Except Exn RequestUuid :=
  if base = [] then .error (.uuidError "request_uuid base is empty")
  else if '+' ∈ base then
    .error (.uuidError ("Invalid character(s) in request_uuid base " ++ String.ofList base))
  else .ok { base }

/-- The constructor with `complete_tag`. -/
def ofComplete (complete : List Char) : RequestUuid := { base := complete, finalized := true }

/-- `make_base_string`: strip away the extensions. -/
def makeBaseString (orig : List Char) : List Char := orig.takeWhile (· ≠ '+')

def checkNotFinalized (u : RequestUuid) : Except Exn Unit :=
  if u.finalized then .error (.logicError "request_uuid object already finalized") else .ok ()

def setLevel (u : RequestUuid) (level : CachingLevel) : Except Exn RequestUuid := do
  u.checkNotFinalized
  return { u with level }

def setFlattened (u : RequestUuid) : Except Exn RequestUuid := do
  u.checkNotFinalized
  if u.flattened then throw (.logicError "request_uuid object already flattened")
  return { u with flattened := true }

def makeProxy (u : RequestUuid) : Except Exn RequestUuid := do
  u.checkNotFinalized
  if u.isProxy then throw (.logicError "request_uuid object already proxy")
  return { u with isProxy := true }

def clone (u : RequestUuid) : Except Exn RequestUuid := do
  let mut res ← ofBase (makeBaseString u.base)
  if let some level := u.level then res ← res.setLevel level
  if u.flattened then res ← res.setFlattened
  if u.isProxy then res ← res.makeProxy
  return res

/-- `str()`, the full uuid. -/
def str (u : RequestUuid) : List Char :=
  if u.finalized then u.base
  else u.base ++ (match u.level with | some level => level.ext | none => [])
    ++ (if u.flattened then "+flattened".toList else [])
    ++ (if u.isProxy then ":proxy".toList else [])

/-- `make_clone_uuid`. -/
def makeCloneUuid (u : RequestUuid) : Except Exn RequestUuid := do (← u.clone).setFlattened

/-- `is_normalizer`, on the full uuid. -/
def isNormalizer (str : List Char) : Bool := "normalization<".toList.isPrefixOf str

end RequestUuid

/-! ## Requests and their identities -/

/-- `request_function_t`, for requests that are resolved locally. -/
inductive FunctionType
  | plain | coro
  deriving DecidableEq, Repr

/-- What is fixed at compile time for a `function_request_impl`. -/
structure ImplType (T : Type*) where
  valueType : T
  level : CachingLevel
  functionType : FunctionType := .plain
  introspective : Bool := false
  deriving DecidableEq, Repr

/-- The properties of a request.  `maxAttempts` is that of its `default_retrier`, or
`none` with `no_retrier`. -/
structure RequestProps (T : Type*) where
  impl : ImplType T
  uuid : RequestUuid
  maxAttempts : Option ℤ := none
  deriving DecidableEq, Repr

/-- How often `resolve_request_with_retry` tries again at most: `attempt_retry` gives up
once `attempt + 1` reaches `max_attempts`. -/
def RequestProps.retries {T : Type*} (p : RequestProps T) : ℕ :=
  match p.maxAttempts with
  | some n => (n - 1).toNat
  | none => 0

/-- What the comparison of requests looks at.  `retryable` is part of the type of a
`function_request`, which matters where it is an argument. -/
inductive RequestId (T V : Type*)
  | value (v : V)
  | call (retryable : Bool) (impl : ImplType T) (uuid : List Char) (args : List (RequestId T V))

section
variable {T V : Type*} [DecidableEq T] [DecidableEq V]

mutual
def RequestId.decEq : (i j : RequestId T V) → Decidable (i = j)
  | .value v, .value v' => decidable_of_iff (v = v') (by simp)
  | .call r impl uuid is, .call r' impl' uuid' js =>
      have := RequestId.decEqs is js
      decidable_of_iff (r = r' ∧ impl = impl' ∧ uuid = uuid' ∧ is = js) (by simp)
  | .value _, .call _ _ _ _ => .isFalse (by simp)
  | .call _ _ _ _, .value _ => .isFalse (by simp)
termination_by structural i => i
def RequestId.decEqs : (is js : List (RequestId T V)) → Decidable (is = js)
  | [], [] => .isTrue rfl
  | i :: is, j :: js =>
      have := RequestId.decEq i j
      have := RequestId.decEqs is js
      decidable_of_iff (i = j ∧ is = js) (by simp)
  | [], _ :: _ => .isFalse (by simp)
  | _ :: _, [] => .isFalse (by simp)
termination_by structural is => is
end

instance : DecidableEq (RequestId T V) := RequestId.decEq

end

/-- A function as the C++ type system sees it: its results are of type `t`. -/
structure TypedFunction {T V : Type*} (typeOf : V → T) (t : T) where
  run : List V → Except Exn V
  typed : ∀ vs v, run vs = .ok v → typeOf v = t

/-- A plain value, or a `function_request`. -/
inductive Request {T V : Type*} (typeOf : V → T)
  | value (v : V)
  | call (props : RequestProps T) (function : TypedFunction typeOf props.impl.valueType)
      (args : List (Request typeOf))

variable {T V : Type*} {typeOf : V → T}

/-- Induction over request trees. -/
@[elab_as_elim]
theorem Request.induction {P : Request typeOf → Prop} (value : ∀ v, P (.value v))
    (call : ∀ p f args, (∀ a ∈ args, P a) → P (.call p f args)) (r : Request typeOf) : P r :=
  match r with
  | .value v => value v
  | .call p f args => call p f args fun a ha =>
      have := List.sizeOf_lt_of_mem ha
      Request.induction value call a
termination_by sizeOf r

/-- `get_captured_id`: the key of a request with the given arguments. -/
def RequestProps.capturedId (p : RequestProps T) (args : List (RequestId T V)) : RequestId T V :=
  .call false p.impl p.uuid.str args

mutual
/-- A request as an argument of another one. -/
def Request.id : Request typeOf → RequestId T V
  | .value v => .value v
  | .call p _ args => .call p.maxAttempts.isSome p.impl p.uuid.str (Request.ids args)
def Request.ids : List (Request typeOf) → List (RequestId T V)
  | [] => []
  | a :: as => a.id :: Request.ids as
end

/-! ## Uncached evaluation -/

section
variable [DecidableEq T] (typeOf)

/-- The value that `resolve_sync_local` returns without calling the function: the
argument of a coroutine that normalizes a value of its own type. -/
def normalized (impl : ImplType T) (uuid : List Char) : List (RequestId T V) → Option V
  | [.value v] =>
      if impl.functionType = .coro ∧ typeOf v = impl.valueType ∧ RequestUuid.isNormalizer uuid
      then some v else none
  | _ => none

variable {typeOf}

mutual
/-- The value of a request tree, `none` if its evaluation throws. -/
def Request.eval : Request typeOf → Option V
  | .value v => some v
  | .call p f args =>
      (normalized typeOf p.impl p.uuid.str (Request.ids args)).or
        ((Request.evalAll args).bind fun vs => (f.run vs).toOption)
def Request.evalAll : List (Request typeOf) → Option (List V)
  | [] => some []
  | a :: as => a.eval.bind fun v => (Request.evalAll as).map (v :: ·)
end

end

/-- `make_flattened_clone`, once the arguments have been resolved and the uuid of the
clone is made. -/
def RequestProps.flattened (p : RequestProps T) (uuid : RequestUuid) : RequestProps T :=
  { impl := { p.impl with level := p.impl.level.toCompositionBased }, uuid }

end Cradle.Resolve
