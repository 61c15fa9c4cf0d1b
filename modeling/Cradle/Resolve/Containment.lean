import Cradle.Core.Bytes
import Cradle.Resolve.Resolver

/-!
# Containment

A request with containment data has its function run in a subprocess.  The choice is made
on the `function_request_impl` object that is about to be resolved, after the caches.  For
value-based caching that object is a flattened clone of the request, and the constructor
that makes the clone knows nothing of containment data: on a cache miss the clone's
function is called in the current process.

The resolution is that of `Resolver`, in any context, with each call of a function recorded
together with the request that it was made for.  The caches are left open: a lookup may find
anything or nothing, whatever other resolutions have put there.
-/

namespace Cradle.Resolve

/-! ## Requests -/

/-- `containment_data`. -/
structure ContainmentData where
  plainUuid : RequestUuid
  dllDir : String
  dllName : String
  deriving DecidableEq

/-- The properties of a request that is not a clone itself, so that it can be cloned. -/
structure OriginalProps (T : Type) extends RequestProps T where
  clonable : ∃ u, uuid.makeCloneUuid = .ok u

/-- A plain value, or a `function_request`.  Functions are known by name. -/
inductive FunctionRequest (T F V : Type)
  | value (type : T) (v : V)
  | call (props : OriginalProps T) (function : F) (containment : Option ContainmentData)
      (args : List (FunctionRequest T F V))

/-- `function_request_impl`: the object that is resolved for a request, which is the
request's own one or a clone.  `origin` is not in the program: it is that request. -/
structure FunctionRequestImpl (T F V : Type) where
  props : RequestProps T
  function : F
  args : List (FunctionRequest T F V)
  containment : Option ContainmentData := none
  origin : FunctionRequest T F V

variable {T F V : Type}

namespace FunctionRequest

/-- The type of the value that the request resolves to. -/
def valueType : FunctionRequest T F V → T
  | .value type _ => type
  | .call p _ _ _ => p.impl.valueType

def containment : FunctionRequest T F V → Option ContainmentData
  | .value _ _ => none
  | .call _ _ c _ => c

/-- The request is a part of a request tree. -/
inductive Within (q : FunctionRequest T F V) : FunctionRequest T F V → Prop
  | self : Within q q
  | arg {p f c args a} : a ∈ args → Within q a → Within q (.call p f c args)

/-- Induction over request trees. -/
@[elab_as_elim]
theorem induction {P : FunctionRequest T F V → Prop} (value : ∀ t v, P (.value t v))
    (call : ∀ p f c args, (∀ a ∈ args, P a) → P (.call p f c args))
    (r : FunctionRequest T F V) : P r :=
  match r with
  | .value t v => value t v
  | .call p f c args => call p f c args fun a ha =>
      have := List.sizeOf_lt_of_mem ha
      FunctionRequest.induction value call a
termination_by sizeOf r

end FunctionRequest

namespace FunctionRequestImpl

/-- The value that `resolve_sync_normalizer` returns. -/
def normalized [DecidableEq T] (obj : FunctionRequestImpl T F V) : Option V :=
  match obj.args with
  | [.value type v] =>
      if obj.props.impl.functionType = .coro ∧ type = obj.props.impl.valueType
        ∧ RequestUuid.isNormalizer obj.props.uuid.str
      then some v else none
  | _ => none

/-- The object of a request that was made by the user. -/
def ofRequest (p : OriginalProps T) (f : F) (c : Option ContainmentData)
    (args : List (FunctionRequest T F V)) : FunctionRequestImpl T F V where
  props := p.toRequestProps
  function := f
  args := args
  containment := c
  origin := .call p f c args

/-- The clone is constructed from properties, function and arguments. -/
def flattened (obj : FunctionRequestImpl T F V) (uuid : RequestUuid) (vs : List V) :
    FunctionRequestImpl T F V where
  props := obj.props.flattened uuid
  function := obj.function
  args := List.zipWith (fun a v => .value a.valueType v) obj.args vs
  origin := obj.origin

/-- `make_flattened_clone`, once the arguments have been resolved. -/
def makeFlattenedClone (obj : FunctionRequestImpl T F V) (vs : List V) :
    Except Exn (FunctionRequestImpl T F V) := do
  let uuid ← obj.props.uuid.makeCloneUuid
  pure (obj.flattened uuid vs)

end FunctionRequestImpl

/-! ## Resolving -/

inductive Place
  | inProcess | subprocess
  deriving DecidableEq

/-- A call of the function of a request. -/
structure FunctionCall (T F V : Type) where
  request : FunctionRequest T F V
  place : Place

/-- The calls up to now, and how often the caches have been consulted. -/
structure CallTrace (T F V : Type) where
  calls : List (FunctionCall T F V) := []
  lookups : ℕ := 0
  reads : ℕ := 0

/-- What a lookup in the memory cache leads to: a record whose task is under way or has
ended, or a new record. -/
inductive CacheAnswer (V : Type)
  | found (result : Except Exn V)
  | miss

/-- What a resolution depends on. -/
structure LocalEnv (T F V : Type) where
  supportCaching : Bool
  /-- The context is a `local_async_context_intf`. -/
  isAsync : Bool
  /-- The order of the arguments in a call, which C++ leaves open. -/
  callOrder : ArgOrder
  memoryCache : ℕ → CacheAnswer V
  secondaryCache : ℕ → Option Bytes
  serializeValue : V → Bytes
  deserializeValue : T → Bytes → Except Exn V
  call : F → List V → Except Exn V
  /-- `creq_controller::resolve` for a request on the given values. -/
  resolveContained : ContainmentData → List V → Except Exn V

abbrev Traced (T F V α : Type) := Coro (CallTrace T F V) Exn α

namespace Traced

def recordCall (request : FunctionRequest T F V) (place : Place) : Traced T F V Unit := fun s =>
  (.value (), { s with calls := s.calls ++ [⟨request, place⟩] })

section
variable [DecidableEq T] (env : LocalEnv T F V)

/-- Construct a cache pointer. -/
def lookupMemoryCache : Traced T F V (CacheAnswer V) := fun s =>
  (.value (env.memoryCache s.lookups), { s with lookups := s.lookups + 1 })

def readSecondaryCache : Traced T F V (Option Bytes) := fun s =>
  (.value (env.secondaryCache s.reads), { s with reads := s.reads + 1 })

/-- `resolve_sync_contained` and `resolve_async_contained`. -/
def resolveContained (obj : FunctionRequestImpl T F V) (containment : ContainmentData)
    (args : ArgOrder → Traced T F V (List V)) : Traced T F V V := do
  let vs ← args .whenAll
  recordCall obj.origin .subprocess
  Coro.ofExcept (env.resolveContained containment vs)

/-- `resolve_sync_local` and `resolve_async_local`. -/
def resolveLocal (obj : FunctionRequestImpl T F V) (args : ArgOrder → Traced T F V (List V)) :
    Traced T F V V :=
  match obj.normalized with
  | some v => pure v
  | none => do
      let vs ← args
        (if env.isAsync ∨ obj.props.impl.functionType = .coro then .whenAll else env.callOrder)
      recordCall obj.origin .inProcess
      Coro.ofExcept (env.call obj.function vs)

/-- `resolve_request_call`: `resolve_sync` or `resolve_async`. -/
def resolveRequestCall (obj : FunctionRequestImpl T F V)
    (args : ArgOrder → Traced T F V (List V)) : Traced T F V V :=
  match obj.containment with
  | some containment => resolveContained env obj containment args
  | none => resolveLocal env obj args

def secondaryCachedBlob (createTask : Traced T F V Bytes) : Traced T F V Bytes := do
  match ← readSecondaryCache env with
  | some blob => pure blob
  | none => createTask

/-- For both kinds of caching. -/
def resolveSecondaryCached (obj : FunctionRequestImpl T F V) (direct : Traced T F V V) :
    Traced T F V V :=
  if obj.props.impl.level.isMemoryCached then direct
  else do
    let blob ← secondaryCachedBlob env do
      let v ← direct
      pure (env.serializeValue v)
    Coro.ofExcept (env.deserializeValue obj.props.impl.valueType blob)

/-- For composition-based caching. -/
def resolveRequestCached (obj : FunctionRequestImpl T F V)
    (args : ArgOrder → Traced T F V (List V)) : Traced T F V V := do
  match ← lookupMemoryCache env with
  | .found result => Coro.ofExcept result
  | .miss => resolveSecondaryCached env obj (resolveRequestCall env obj args)

/-- `resolve_request_cached` for value-based caching. -/
def resolveRequestFlattened (obj : FunctionRequestImpl T F V)
    (args : ArgOrder → Traced T F V (List V)) : Traced T F V V := do
  let vs ← args .whenAll
  let clone ← Coro.ofExcept (obj.makeFlattenedClone vs)
  resolveRequestCached env clone fun _ => pure vs

def resolveImpl (obj : FunctionRequestImpl T F V) (args : ArgOrder → Traced T F V (List V)) :
    Traced T F V V :=
  if obj.props.impl.level.isUncached ∨ ¬ env.supportCaching then resolveRequestCall env obj args
  else if obj.props.impl.level.isValueBased then resolveRequestFlattened env obj args
  else resolveRequestCached env obj args

mutual
/-- `resolve_request`. -/
def resolveRequest : FunctionRequest T F V → Traced T F V V
  | .value _ v => pure v
  | .call p f c args =>
      Coro.retry Exn.isHttpRequestFailure
        (resolveImpl env (.ofRequest p f c args) fun order => resolveArgs order args) p.retries
def resolveArgs (order : ArgOrder) : List (FunctionRequest T F V) → Traced T F V (List V)
  | [] => pure []
  | a :: as =>
      match order with
      | .leftToRight => do
          let v ← resolveRequest a
          let vs ← resolveArgs order as
          pure (v :: vs)
      | .rightToLeft => do
          let vs ← resolveArgs order as
          let v ← resolveRequest a
          pure (v :: vs)
      | .whenAll => do
          let (v, vs) ← Coro.whenBoth (resolveRequest a) (resolveArgs order as)
          pure (v :: vs)
end

end
end Traced

/-- The calls made while a request is resolved. -/
def LocalEnv.calls [DecidableEq T] (env : LocalEnv T F V) (r : FunctionRequest T F V) :
    List (FunctionCall T F V) :=
  (Traced.resolveRequest env r {}).2.calls

/-- No function of a request with containment data was called in the current process. -/
def Honoured (calls : List (FunctionCall T F V)) : Prop :=
  ∀ c ∈ calls, c.place = .inProcess → c.request.containment = none

/-- The flattened clone is taken for a normalizer, so that its function is not called. -/
def CloneNormalizes (p : OriginalProps T) (args : List (FunctionRequest T F V)) : Prop :=
  ∃ u, p.uuid.makeCloneUuid = .ok u ∧ p.impl.functionType = .coro
    ∧ args.map FunctionRequest.valueType = [p.impl.valueType]
    ∧ RequestUuid.isNormalizer u.str = true

/-- The request has containment data, and will be replaced by a clone without them. -/
def FunctionRequest.LosesContainment : FunctionRequest T F V → Prop
  | .value _ _ => False
  | .call p _ c args => c ≠ none ∧ p.impl.level.isValueBased = true ∧ ¬ CloneNormalizes p args

theorem FunctionRequest.LosesContainment.exists_call {q : FunctionRequest T F V}
    (h : q.LosesContainment) :
    ∃ p f c args, q = .call p f c args ∧ c ≠ none ∧ p.impl.level.isValueBased = true
      ∧ ¬ CloneNormalizes p args := by
  cases q with
  | value t v => cases h
  | call p f c args => exact ⟨p, f, c, args, rfl, h⟩

/-! ## Clones -/

theorem makeFlattenedClone_eq {obj : FunctionRequestImpl T F V} {u : RequestUuid}
    (hu : obj.props.uuid.makeCloneUuid = .ok u) (vs : List V) :
    obj.makeFlattenedClone vs = .ok (obj.flattened u vs) := by
  simp only [FunctionRequestImpl.makeFlattenedClone, hu]
  rfl

theorem normalized_eq_none_iff [DecidableEq T] {obj : FunctionRequestImpl T F V} {type : T} {v : V}
    (h : obj.args = [.value type v]) :
    obj.normalized = none ↔ ¬ (obj.props.impl.functionType = .coro
      ∧ type = obj.props.impl.valueType ∧ RequestUuid.isNormalizer obj.props.uuid.str = true) := by
  simp only [FunctionRequestImpl.normalized, h]
  by_cases hall : obj.props.impl.functionType = .coro ∧ type = obj.props.impl.valueType
      ∧ RequestUuid.isNormalizer obj.props.uuid.str = true
  · rw [if_pos hall]
    exact iff_of_false (by simp) (not_not_intro hall)
  · rw [if_neg hall]
    exact iff_of_true rfl hall

theorem args_of_normalized [DecidableEq T] {obj : FunctionRequestImpl T F V} {v : V}
    (h : obj.normalized = some v) : ∃ type, obj.args = [.value type v] := by
  rw [FunctionRequestImpl.normalized] at h
  split at h
  · next type w hargs =>
      split at h
      · cases h
        exact ⟨type, hargs⟩
      · cases h
  · cases h

/-- A clone is taken for a normalizer if its uuid and the types say so. -/
theorem normalized_flattened [DecidableEq T] {p : OriginalProps T} {f : F}
    {c : Option ContainmentData} {args : List (FunctionRequest T F V)} {u : RequestUuid}
    (hu : p.uuid.makeCloneUuid = .ok u) {vs : List V} (hlength : vs.length = args.length) :
    ((FunctionRequestImpl.ofRequest p f c args).flattened u vs).normalized = none
      ↔ ¬ CloneNormalizes p args := by
  have hnormalizes : CloneNormalizes p args ↔ p.impl.functionType = .coro
      ∧ args.map FunctionRequest.valueType = [p.impl.valueType]
      ∧ RequestUuid.isNormalizer u.str = true := by
    constructor
    · intro h
      obtain ⟨u', hu', h⟩ := h
      rw [hu] at hu'
      cases hu'
      exact h
    · intro h
      exact ⟨u, hu, h⟩
  rw [hnormalizes]
  -- only a clone with one argument can be one
  match args, vs with
  | [], vs =>
      refine iff_of_true rfl ?_
      simp
  | [a], [v] =>
      simp only [List.map_cons, List.map_nil, List.cons.injEq, and_true]
      exact normalized_eq_none_iff rfl
  | a :: b :: args, v :: w :: vs =>
      refine iff_of_true rfl ?_
      simp

/-- A request with a request among its arguments is no normalizer. -/
theorem normalized_eq_none [DecidableEq T] {p : OriginalProps T} {f : F}
    {c : Option ContainmentData} {args : List (FunctionRequest T F V)} {q a : FunctionRequest T F V}
    (hq : q.LosesContainment) (ha : a ∈ args) (hwithin : q.Within a) :
    (FunctionRequestImpl.ofRequest p f c args).normalized = none := by
  cases hnormalized : (FunctionRequestImpl.ofRequest p f c args).normalized with
  | none => rfl
  | some v =>
      obtain ⟨t, hargs⟩ := args_of_normalized hnormalized
      have ha' : a ∈ [FunctionRequest.value t v] := hargs ▸ ha
      rw [List.mem_singleton.mp ha'] at hwithin
      cases hwithin
      cases hq

/-! ## What is honoured -/

theorem Honoured.nil : Honoured ([] : List (FunctionCall T F V)) := by
  intro c hc
  cases hc

theorem Honoured.append {calls : List (FunctionCall T F V)} (h : Honoured calls)
    {call : FunctionCall T F V}
    (hcall : call.place = .inProcess → call.request.containment = none) :
    Honoured (calls ++ [call]) :=
  List.forall_mem_append.mpr ⟨h, List.forall_mem_singleton.mpr hcall⟩

/-- The calls of the state are honoured. -/
def CallTrace.Honoured (s : CallTrace T F V) : Prop := Resolve.Honoured s.calls

namespace Traced

section
variable (env : LocalEnv T F V)

theorem recordCall_keeps {request : FunctionRequest T F V} {place : Place}
    (h : place = .inProcess → request.containment = none) :
    Coro.Keeps CallTrace.Honoured (recordCall request place) fun _ => True :=
  fun _ hs => ⟨Honoured.append hs h, fun _ _ => trivial⟩

theorem lookupMemoryCache_keeps :
    Coro.Keeps CallTrace.Honoured (lookupMemoryCache env) fun _ => True :=
  fun _ hs => ⟨hs, fun _ _ => trivial⟩

theorem readSecondaryCache_keeps :
    Coro.Keeps CallTrace.Honoured (readSecondaryCache env) fun _ => True :=
  fun _ hs => ⟨hs, fun _ _ => trivial⟩

variable [DecidableEq T] {obj : FunctionRequestImpl T F V}
  {args : ArgOrder → Traced T F V (List V)}

/-- A function is called in the current process only for an object without containment
data; it is then enough that the request had none either. -/
theorem resolveRequestCall_keeps
    (hargs : ∀ order, Coro.Keeps CallTrace.Honoured (args order) fun _ => True)
    (hobj : obj.containment = none → obj.normalized = none → obj.origin.containment = none) :
    Coro.Keeps CallTrace.Honoured (resolveRequestCall env obj args) fun _ => True := by
  rw [resolveRequestCall]
  cases hcontainment : obj.containment with
  | some containment =>
      refine (hargs _).bind fun vs _ => ?_
      refine (recordCall_keeps fun h => by cases h).bind fun _ _ => ?_
      exact .ofExcept fun _ _ => trivial
  | none =>
      simp only [resolveLocal]
      cases hnormalized : obj.normalized with
      | some v => exact .pure trivial
      | none =>
          refine (hargs _).bind fun vs _ => ?_
          refine (recordCall_keeps fun _ => hobj hcontainment hnormalized).bind fun _ _ => ?_
          exact .ofExcept fun _ _ => trivial

theorem resolveRequestCached_keeps
    (hdirect : Coro.Keeps CallTrace.Honoured (resolveRequestCall env obj args) fun _ => True) :
    Coro.Keeps CallTrace.Honoured (resolveRequestCached env obj args) fun _ => True := by
  refine (lookupMemoryCache_keeps env).bind fun answer _ => ?_
  cases answer with
  | found result => exact .ofExcept fun _ _ => trivial
  | miss =>
      rw [resolveSecondaryCached]
      by_cases hlevel : obj.props.impl.level.isMemoryCached = true
      · rw [if_pos hlevel]
        exact hdirect
      · rw [if_neg hlevel]
        refine Coro.Keeps.bind (Q := fun _ => True) ?_ fun blob _ => .ofExcept fun _ _ => trivial
        refine (readSecondaryCache_keeps env).bind fun found _ => ?_
        cases found with
        | some blob => exact .pure trivial
        | none => exact hdirect.bind fun v _ => .pure trivial

/-- For value-based caching, where the clone has no containment data whatever the request. -/
theorem resolveRequestFlattened_keeps {p : OriginalProps T} {f : F} {c : Option ContainmentData}
    {as : List (FunctionRequest T F V)}
    (hargs : Coro.Keeps CallTrace.Honoured (args .whenAll) fun vs => vs.length = as.length)
    (hclone : ¬ CloneNormalizes p as → c = none) :
    Coro.Keeps CallTrace.Honoured (resolveRequestFlattened env (.ofRequest p f c as) args)
      fun _ => True := by
  refine hargs.bind fun vs hvs => ?_
  obtain ⟨u, hu⟩ := p.clonable
  rw [makeFlattenedClone_eq hu, Coro.ofExcept_ok_bind]
  refine resolveRequestCached_keeps env (resolveRequestCall_keeps env (fun _ => .pure trivial) ?_)
  intro _ hnormalized
  exact hclone ((normalized_flattened hu hvs).mp hnormalized)

/-- The three ways to resolve an object. -/
theorem resolveImpl_cases {P : Traced T F V V → Prop} (direct : P (resolveRequestCall env obj args))
    (cached : P (resolveRequestCached env obj args))
    (flattened : env.supportCaching = true → obj.props.impl.level.isValueBased = true →
      P (resolveRequestFlattened env obj args)) : P (resolveImpl env obj args) := by
  rw [resolveImpl]
  by_cases huncached : obj.props.impl.level.isUncached = true ∨ ¬ env.supportCaching = true
  · rw [if_pos huncached]
    exact direct
  · rw [if_neg huncached]
    by_cases hlevel : obj.props.impl.level.isValueBased = true
    · rw [if_pos hlevel]
      exact flattened (not_not.mp (not_or.mp huncached).2) hlevel
    · rw [if_neg hlevel]
      exact cached

theorem resolveImpl_eq_flattened (hcaching : env.supportCaching = true)
    (hlevel : obj.props.impl.level.isValueBased = true) :
    resolveImpl env obj args = resolveRequestFlattened env obj args := by
  have hcached : ¬ (obj.props.impl.level.isUncached = true ∨ ¬ env.supportCaching = true) := by
    intro h
    rcases h with h | h
    · have hnone : obj.props.impl.level = .none := by simpa [CachingLevel.isUncached] using h
      simp [CachingLevel.isValueBased, hnone] at hlevel
    · exact h hcaching
  rw [resolveImpl]
  rw [if_neg hcached, if_pos hlevel]

theorem resolveImpl_keeps {p : OriginalProps T} {f : F} {c : Option ContainmentData}
    {as : List (FunctionRequest T F V)}
    (hargs : ∀ order, Coro.Keeps CallTrace.Honoured (args order) fun vs => vs.length = as.length)
    (hlose : env.supportCaching = true → ¬ (FunctionRequest.call p f c as).LosesContainment) :
    Coro.Keeps CallTrace.Honoured (resolveImpl env (.ofRequest p f c as) args) fun _ => True := by
  have hdirect : Coro.Keeps CallTrace.Honoured
      (resolveRequestCall env (.ofRequest p f c as) args) fun _ => True :=
    resolveRequestCall_keeps env (fun order => (hargs order).mono fun _ _ => trivial)
      fun h _ => h
  refine resolveImpl_cases env (P := (Coro.Keeps CallTrace.Honoured · fun _ => True)) hdirect
    (resolveRequestCached_keeps env hdirect) ?_
  intro hcaching hlevel
  refine resolveRequestFlattened_keeps env (hargs _) fun hclone => ?_
  by_cases hc : c = none
  · exact hc
  · exact absurd ⟨hc, hlevel, hclone⟩ (hlose hcaching)

theorem resolveArgs_keeps {as : List (FunctionRequest T F V)}
    (h : ∀ a ∈ as, Coro.Keeps CallTrace.Honoured (resolveRequest env a) fun _ => True)
    (order : ArgOrder) :
    Coro.Keeps CallTrace.Honoured (resolveArgs env order as) fun vs => vs.length = as.length := by
  induction as with
  | nil => exact .pure rfl
  | cons a as ih =>
      have ha := h a List.mem_cons_self
      have has := ih fun b hb => h b (List.mem_cons_of_mem _ hb)
      have hcons : ∀ (v : V) (vs : List V), vs.length = as.length →
          Coro.Keeps CallTrace.Honoured (pure (v :: vs) : Traced T F V (List V))
            fun vs => vs.length = (a :: as).length := by
        intro v vs hvs
        exact .pure (by rw [List.length_cons, List.length_cons, hvs])
      cases order with
      | leftToRight => exact ha.bind fun v _ => has.bind fun vs hvs => hcons v vs hvs
      | rightToLeft => exact has.bind fun vs hvs => ha.bind fun v _ => hcons v vs hvs
      | whenAll => exact (ha.whenBoth has).bind fun x hx => hcons x.1 x.2 hx.2

/-- Whatever the functions and the caches do, containment is honoured if no request of the
tree loses its containment data. -/
theorem resolveRequest_keeps {r : FunctionRequest T F V}
    (h : env.supportCaching = true →
      ∀ q : FunctionRequest T F V, q.Within r → ¬ q.LosesContainment) :
    Coro.Keeps CallTrace.Honoured (resolveRequest env r) fun _ => True := by
  induction r using FunctionRequest.induction with
  | value t v => exact .pure trivial
  | call p f c args ih =>
      have hargs := resolveArgs_keeps env fun a ha => ih a ha fun hcaching q hq =>
        h hcaching q (.arg ha hq)
      exact (resolveImpl_keeps env hargs fun hcaching => h hcaching _ .self).retry _ _

end

/-! ## A cold start

The caches have nothing, and every function returns; then every request of the tree is
resolved. -/

/-- The coroutine ends with a value, and leads from one property of the calls to
another. -/
def Leads {α : Type} (I : List (FunctionCall T F V) → Prop) (t : Traced T F V α)
    (J : List (FunctionCall T F V) → Prop) : Prop :=
  Coro.Returns (fun s => I s.calls) t fun _ s => J s.calls

/-- A property that further calls do not change. -/
def Lasting (I : List (FunctionCall T F V) → Prop) : Prop :=
  ∀ calls call, I calls → I (calls ++ [call])

theorem recordCall_leads {I : List (FunctionCall T F V) → Prop} (hI : Lasting I)
    (request : FunctionRequest T F V) (place : Place) : Leads I (recordCall request place) I :=
  fun s hs => ⟨(), _, rfl, hI s.calls _ hs⟩

section
variable [DecidableEq T] [Inhabited V] {obj : FunctionRequestImpl T F V}
  {args : ArgOrder → Traced T F V (List V)} {I J : List (FunctionCall T F V) → Prop}

variable (T F V) in
def coldEnv : LocalEnv T F V where
  supportCaching := true
  isAsync := false
  callOrder := .whenAll
  memoryCache := fun _ => .miss
  secondaryCache := fun _ => none
  serializeValue := fun _ => []
  deserializeValue := fun _ _ => .ok default
  call := fun _ _ => .ok default
  resolveContained := fun _ _ => .ok default

theorem resolveRequestCall_leads (hargs : Leads I (args .whenAll) J) (hJ : Lasting J)
    (hobj : obj.normalized = none ∨ ∀ calls, I calls → J calls) :
    Leads I (resolveRequestCall (coldEnv T F V) obj args) J := by
  rw [resolveRequestCall]
  cases obj.containment with
  | some containment =>
      exact hargs.bind fun vs => (recordCall_leads hJ _ _).bind fun _ => .pure fun _ hs => hs
  | none =>
      rw [resolveLocal]
      cases hnormalized : obj.normalized with
      | some v =>
          rw [hnormalized] at hobj
          exact .pure fun s hs => (hobj.resolve_left (by simp)) s.calls hs
      | none =>
          have horder : (if (coldEnv T F V).isAsync = true ∨ obj.props.impl.functionType = .coro
              then ArgOrder.whenAll else (coldEnv T F V).callOrder) = .whenAll := ite_self _
          simp only [horder]
          exact hargs.bind fun vs => (recordCall_leads hJ _ _).bind fun _ => .pure fun _ hs => hs

/-- On a miss of both caches the object is resolved itself. -/
theorem resolveRequestCached_leads (h : Leads I (resolveRequestCall (coldEnv T F V) obj args) J) :
    Leads I (resolveRequestCached (coldEnv T F V) obj args) J := by
  have hsecondary : Leads I (resolveSecondaryCached (coldEnv T F V) obj
      (resolveRequestCall (coldEnv T F V) obj args)) J := by
    rw [resolveSecondaryCached]
    by_cases hlevel : obj.props.impl.level.isMemoryCached = true
    · rw [if_pos hlevel]
      exact h
    · rw [if_neg hlevel]
      have hblob : Leads I (do
          let v ← resolveRequestCall (coldEnv T F V) obj args
          pure ((coldEnv T F V).serializeValue v)) J :=
        h.bind fun v => .pure fun _ hs => hs
      have hread : Leads I (secondaryCachedBlob (coldEnv T F V) do
          let v ← resolveRequestCall (coldEnv T F V) obj args
          pure ((coldEnv T F V).serializeValue v)) J :=
        fun s hs => hblob { s with reads := s.reads + 1 } hs
      exact hread.bind fun blob => .pure fun _ hs => hs
  intro s hs
  exact hsecondary { s with lookups := s.lookups + 1 } hs

variable {p : OriginalProps T} {f : F} {c : Option ContainmentData}
  {as : List (FunctionRequest T F V)}

theorem resolveRequestFlattened_leads (hargs : Leads I (args .whenAll) J) (hJ : Lasting J) :
    Leads I (resolveRequestFlattened (coldEnv T F V) (.ofRequest p f c as) args) J := by
  obtain ⟨u, hu⟩ := p.clonable
  refine hargs.bind fun vs => ?_
  rw [makeFlattenedClone_eq hu, Coro.ofExcept_ok_bind]
  exact resolveRequestCached_leads
    (resolveRequestCall_leads (.pure fun _ hs => hs) hJ (.inr fun _ hs => hs))

/-- The clone's function is called in the current process. -/
theorem resolveRequestFlattened_calls
    (hargs : Coro.Returns (fun _ => True) (args .whenAll) fun vs _ => vs.length = as.length)
    (hclone : ¬ CloneNormalizes p as) :
    Leads (fun _ => True) (resolveRequestFlattened (coldEnv T F V) (.ofRequest p f c as) args)
      (⟨.call p f c as, .inProcess⟩ ∈ ·) := by
  obtain ⟨u, hu⟩ := p.clonable
  refine hargs.bind fun vs => ?_
  rw [makeFlattenedClone_eq hu, Coro.ofExcept_ok_bind]
  intro s hvs
  have hnormalized : ((FunctionRequestImpl.ofRequest p f c as).flattened u vs).normalized = none :=
    (normalized_flattened hu hvs).mpr hclone
  have hcall : Leads (fun _ => True) (resolveRequestCall (coldEnv T F V)
      ((FunctionRequestImpl.ofRequest p f c as).flattened u vs) fun _ => pure vs)
      (⟨.call p f c as, .inProcess⟩ ∈ ·) := by
    intro s _
    refine ⟨default, { s with calls := s.calls ++ [⟨.call p f c as, .inProcess⟩] }, ?_, ?_⟩
    · simp only [resolveRequestCall, resolveLocal]
      rw [hnormalized]
      rfl
    · exact List.mem_append_right s.calls (List.mem_singleton_self _)
  exact resolveRequestCached_leads hcall s trivial

theorem resolveArgs_leads (hI : ∀ a ∈ as, Leads I (resolveRequest (coldEnv T F V) a) I) :
    Leads I (resolveArgs (coldEnv T F V) .whenAll as) I := by
  induction as with
  | nil => exact .pure fun _ hs => hs
  | cons a as ih =>
      have ha := hI a List.mem_cons_self
      have has := ih fun b hb => hI b (List.mem_cons_of_mem _ hb)
      exact (ha.whenBoth fun _ => has).bind fun x => .pure fun _ hs => hs

/-- Every request ends with a value. -/
theorem resolveRequest_leads (hI : Lasting I) (r : FunctionRequest T F V) :
    Leads I (resolveRequest (coldEnv T F V) r) I := by
  induction r using FunctionRequest.induction with
  | value t v => exact .pure fun _ hs => hs
  | call p f c args ih =>
      have hargs := resolveArgs_leads ih
      have hdirect : Leads I (resolveRequestCall (coldEnv T F V) (.ofRequest p f c args)
          fun order => resolveArgs (coldEnv T F V) order args) I :=
        resolveRequestCall_leads hargs hI (.inr fun _ hs => hs)
      refine Coro.Returns.retry ?_ _ _
      exact resolveImpl_cases _ (P := (Leads I · I)) hdirect (resolveRequestCached_leads hdirect)
        fun _ _ => resolveRequestFlattened_leads hargs hI

theorem resolveArgs_length (as : List (FunctionRequest T F V)) :
    Coro.Returns (fun _ => True) (resolveArgs (coldEnv T F V) .whenAll as)
      fun vs _ => vs.length = as.length := by
  induction as with
  | nil => exact .pure fun _ _ => rfl
  | cons a as ih =>
      have ha : Leads (fun _ => True) (resolveRequest (coldEnv T F V) a) fun _ => True :=
        resolveRequest_leads (fun _ _ h => h) a
      refine (ha.whenBoth fun _ => ih).bind fun x => .pure fun s hs => ?_
      rw [List.length_cons, List.length_cons, hs]

/-- What one of the arguments leads to, all of them do. -/
theorem resolveArgs_leads_of_mem (hJ : Lasting J) {a : FunctionRequest T F V} (ha : a ∈ as)
    (h : Leads (fun _ => True) (resolveRequest (coldEnv T F V) a) J) :
    Leads (fun _ => True) (resolveArgs (coldEnv T F V) .whenAll as) J := by
  induction as with
  | nil => cases ha
  | cons b as ih =>
      rcases List.mem_cons.mp ha with rfl | ha
      · have has : Leads J (resolveArgs (coldEnv T F V) .whenAll as) J :=
          resolveArgs_leads fun c _ => resolveRequest_leads hJ c
        exact (h.whenBoth fun _ => has).bind fun x => .pure fun _ hs => hs
      · have hb : Leads (fun _ => True) (resolveRequest (coldEnv T F V) b) fun _ => True :=
          resolveRequest_leads (fun _ _ h => h) b
        exact (hb.whenBoth fun _ => ih ha).bind fun x => .pure fun _ hs => hs

/-- A request that loses its containment data has its function called in the current
process, wherever it stands in the tree. -/
theorem resolveRequest_calls {q r : FunctionRequest T F V} (hq : q.LosesContainment)
    (hr : q.Within r) :
    Leads (fun _ => True) (resolveRequest (coldEnv T F V) r) (⟨q, .inProcess⟩ ∈ ·) := by
  have hlasting : Lasting (⟨q, .inProcess⟩ ∈ · : List (FunctionCall T F V) → Prop) :=
    fun calls call h => List.mem_append_left [call] h
  induction hr with
  | self =>
      obtain ⟨p, f, c, args, rfl, -, hlevel, hclone⟩ := hq.exists_call
      refine Coro.Returns.retry ?_ _ _
      rw [resolveImpl_eq_flattened _ rfl hlevel]
      exact resolveRequestFlattened_calls (resolveArgs_length args) hclone
  | @arg p f c args a ha hwithin ih =>
      have hargs := resolveArgs_leads_of_mem hlasting ha ih
      have hdirect : Leads (fun _ => True) (resolveRequestCall (coldEnv T F V)
          (.ofRequest p f c args) fun order => resolveArgs (coldEnv T F V) order args)
          (⟨q, .inProcess⟩ ∈ ·) :=
        resolveRequestCall_leads hargs hlasting (.inl (normalized_eq_none hq ha hwithin))
      refine Coro.Returns.retry ?_ _ _
      exact resolveImpl_cases _ (P := (Leads (fun _ => True) · (⟨q, .inProcess⟩ ∈ ·))) hdirect
        (resolveRequestCached_leads hdirect) fun _ _ => resolveRequestFlattened_leads hargs hlasting

end
end Traced

/-- Containment is honoured in every resolution of a request tree, whatever the caches and
functions do, exactly if caching is not supported or no request of the tree loses its
containment data. -/
theorem honoured_iff [DecidableEq T] [Inhabited V] (r : FunctionRequest T F V)
    (supportCaching : Bool) :
    (∀ env : LocalEnv T F V, env.supportCaching = supportCaching → Honoured (env.calls r))
      ↔ (supportCaching = true →
          ∀ q : FunctionRequest T F V, q.Within r → ¬ q.LosesContainment) := by
  constructor
  · intro h hcaching q hwithin hq
    have hhonoured := h (Traced.coldEnv T F V) hcaching.symm
    obtain ⟨v, s, hrun, hmem⟩ := Traced.resolveRequest_calls hq hwithin {} trivial
    rw [LocalEnv.calls] at hhonoured
    rw [hrun] at hhonoured
    obtain ⟨p, f, c, args, rfl, hc, -⟩ := hq.exists_call
    exact hc (hhonoured _ hmem rfl)
  · intro h env hcaching
    have hkeeps := Traced.resolveRequest_keeps env (r := r) fun henv => h (hcaching ▸ henv)
    exact (hkeeps {} Honoured.nil).1

/-- An adder with a value-based caching level, contained. -/
def containedAdder : FunctionRequest Unit Unit ℕ :=
  .call
    { impl := { valueType := (), level := .memoryVb }
      uuid := { base := "adder".toList }
      clonable := ⟨_, rfl⟩ }
    () (some ⟨{ base := "adder_plain".toList }, "dlls", "adder"⟩) [.value () 7, .value () 2]

def adderEnv : LocalEnv Unit Unit ℕ :=
  { Traced.coldEnv Unit Unit ℕ with call := fun _ vs => .ok (vs.foldr Nat.add 0) }

/-- The addition is done in the current process. -/
theorem not_honoured_containedAdder : ¬ Honoured (adderEnv.calls containedAdder) := by
  intro h
  have hcalls : adderEnv.calls containedAdder = [⟨containedAdder, .inProcess⟩] := rfl
  rw [hcalls] at h
  cases h _ (List.mem_singleton_self _) rfl

end Cradle.Resolve
