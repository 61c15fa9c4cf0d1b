import Cradle.Resolve.AsyncResolution

/-!
# Requests and their contexts

A context tree has the shape of its request tree, and the coroutine for a request is meant to
have the context at the same position.  So it is for arguments that are resolved with
`make_async_sub_tasks`.  The arguments of a value-based request are resolved with
`make_sync_sub_tasks`, which hands on the context of the request itself, and `resolve_impl`
then sees an asynchronous context and uses it as if it were the argument's own.

Whether a request has such arguments can be seen from the request tree.  Where there are none,
the positions agree in every run.
-/

namespace Cradle.Async

open Resolve
open Remote (AsyncStatus)

variable {T F V K : Type}

/-- A resolution whose requests are where their contexts are.  A context is finished when the
value of its request is there, or when that of an enclosing one came from a cache, in which case
the requests below may not be resolved at all. -/
structure Resolution.Follows (x : Resolution T F V) : Prop where
  inRange : x.outOfRange = false
  positions : ∀ p, (x.activity p).phase ≠ .idle → (x.activity p).ctx = p
  finished : ∀ c, (x.object c).isSome = true → (x.status c).almostFinished = true →
    x.available c = true ∨ ∃ q, q <+: c ∧ q ≠ c ∧ x.fromCache q = true

/-- The context of a request is finished only when the value of that request is there. -/
def Resolution.FinishedOwn (x : Resolution T F V) : Prop :=
  ∀ c, (x.object c).isSome = true → (x.status c).almostFinished = true → x.available c = true

/-- No value-based request has a request among its arguments. -/
def ValueBasedFlat (r : FunctionRequest T F V) : Prop :=
  ∀ p props f c as, Positions.sub args r p = some (.call props f c as) →
    props.impl.level.isValueBased = true → ∀ a ∈ as, isCall a = false

@[simp] theorem valueBasedFlat_value (type : T) (v : V) :
    ValueBasedFlat (.value type v : FunctionRequest T F V) := by
  intro p props f c as h
  cases p <;> simp [Positions.sub, args] at h

@[simp] theorem valueBasedFlat_call {props : OriginalProps T} {f : F}
    {c : Option ContainmentData} {as : List (FunctionRequest T F V)} :
    ValueBasedFlat (.call props f c as)
      ↔ (props.impl.level.isValueBased = true → ∀ a ∈ as, isCall a = false)
        ∧ ∀ a ∈ as, ValueBasedFlat a := by
  constructor
  · intro h
    refine ⟨h [] props f c as rfl, fun a ha p props' f' c' as' hp => ?_⟩
    obtain ⟨i, hi⟩ := List.mem_iff_getElem?.mp ha
    exact h (i :: p) props' f' c' as' (by simp [Positions.sub, args, hi, hp])
  · rintro ⟨hroot, hbelow⟩ p props' f' c' as' hp
    cases p with
    | nil =>
        cases hp
        exact hroot
    | cons i p =>
        obtain ⟨a, ha, hp⟩ := Option.bind_eq_some_iff.mp hp
        exact hbelow a (List.mem_of_getElem? ha) p props' f' c' as' hp

mutual
def decValueBasedFlat : (r : FunctionRequest T F V) → Decidable (ValueBasedFlat r)
  | .value t v => .isTrue (valueBasedFlat_value t v)
  | .call _ _ _ as =>
      have := decValueBasedFlats as
      decidable_of_iff _ valueBasedFlat_call.symm
termination_by structural r => r
def decValueBasedFlats :
    (as : List (FunctionRequest T F V)) → Decidable (∀ a ∈ as, ValueBasedFlat a)
  | [] => .isTrue (by simp)
  | a :: as =>
      have := decValueBasedFlat a
      have := decValueBasedFlats as
      decidable_of_iff (ValueBasedFlat a ∧ ∀ b ∈ as, ValueBasedFlat b) (by simp)
termination_by structural as => as
end

instance (r : FunctionRequest T F V) : Decidable (ValueBasedFlat r) := decValueBasedFlat r

/-! ## The two trees -/

theorem contextTrees_eq_map (as : List (FunctionRequest T F V)) :
    contextTrees as = as.map contextTree := by
  induction as with
  | nil => rfl
  | cons a as ih => rw [contextTrees, ih, List.map_cons]

theorem subs_contextTree (r : FunctionRequest T F V) :
    (contextTree r).subs = (args r).map contextTree := by
  cases r with
  | value t v => rfl
  | call p f c as => exact contextTrees_eq_map as

theorem sub_contextTree (r : FunctionRequest T F V) (p : Position) :
    Positions.sub ContextTree.subs (contextTree r) p
      = (Positions.sub args r p).map contextTree :=
  Positions.sub_map subs_contextTree r p

/-- The request of an object is where it says. -/
theorem exists_of_object {x : Resolution T F V} {p : Position} {obj : FunctionRequestImpl T F V}
    (h : x.object p = some obj) : ∃ props f c,
      Positions.sub args x.request p = some (.call props f c obj.args)
        ∧ obj = .ofRequest props f c obj.args := by
  simp only [Resolution.object, Option.bind_eq_some_iff] at h
  obtain ⟨r, hr, h⟩ := h
  cases r with
  | value t v => cases h
  | call props f c as =>
      obtain rfl := Option.some.inj h
      exact ⟨props, f, c, hr, rfl⟩

theorem numSubs_eq {x : Resolution T F V} {p : Position} {obj : FunctionRequestImpl T F V}
    (h : x.object p = some obj) : x.numSubs p = obj.args.length := by
  obtain ⟨props, f, c, hr, -⟩ := exists_of_object h
  rw [Resolution.numSubs, sub_contextTree, hr]
  simp [subs_contextTree, args]

/-- A request among the arguments. -/
theorem object_concat {x : Resolution T F V} {p : Position} {obj : FunctionRequestImpl T F V}
    (h : x.object p = some obj) {i : ℕ} {a : FunctionRequest T F V} (ha : obj.args[i]? = some a)
    (hcall : isCall a = true) : (x.object (p ++ [i])).isSome = true := by
  obtain ⟨props, f, c, hr, -⟩ := exists_of_object h
  rw [Resolution.object, Positions.sub_concat hr, args, ha]
  cases a with
  | value t v => cases hcall
  | call => rfl

/-- The requests on the way down to a request. -/
theorem object_of_append {x : Resolution T F V} {q : Position} {i : ℕ} {d : Position}
    (h : (x.object (q ++ i :: d)).isSome = true) :
    ∃ obj a, x.object q = some obj ∧ obj.args[i]? = some a ∧ isCall a = true := by
  obtain ⟨obj, hobj⟩ := Option.isSome_iff_exists.mp h
  obtain ⟨props, f, c, hr, -⟩ := exists_of_object hobj
  rw [Positions.sub_append] at hr
  obtain ⟨r, hq, hr⟩ := Option.bind_eq_some_iff.mp hr
  obtain ⟨a, ha, hd⟩ := Option.bind_eq_some_iff.mp hr
  cases r with
  | value t v => simp [args] at ha
  | call props' f' c' as =>
      refine ⟨.ofRequest props' f' c' as, a, by rw [Resolution.object, hq]; rfl, ha, ?_⟩
      cases a with
      | call => rfl
      | value t v => cases d <;> simp [Positions.sub, args] at hd

/-! ## Placement -/

/-- The object is the request's own one, or a clone of a request without requests for
arguments. -/
structure Fits (obj obj' : FunctionRequestImpl T F V) : Prop where
  length_eq : obj'.args.length = obj.args.length
  calls : ∀ (i : ℕ) a, isCall a = true → (obj'.args[i]? = some a ↔ obj.args[i]? = some a)

theorem Fits.refl (obj : FunctionRequestImpl T F V) : Fits obj obj := ⟨rfl, fun _ _ _ => .rfl⟩

/-- A clone has the values of the arguments. -/
theorem fits_flattened {obj : FunctionRequestImpl T F V} {u : RequestUuid} {vs : List V}
    (h : vs.length = obj.args.length) (hflat : ∀ a ∈ obj.args, isCall a = false) :
    Fits obj (obj.flattened u vs) := by
  constructor
  · simp [FunctionRequestImpl.flattened, h]
  · intro i a hcall
    constructor
    · intro ha
      simp only [FunctionRequestImpl.flattened, List.getElem?_zipWith_eq_some] at ha
      obtain ⟨b, v, -, -, rfl⟩ := ha
      cases hcall
    · intro ha
      have := hflat a (List.mem_of_getElem? ha)
      simp [hcall] at this

/-- The values of the arguments are there. -/
def ArgsAvailable (x : Resolution T F V) (p : Position) (obj : FunctionRequestImpl T F V) : Prop :=
  ∀ (i : ℕ) a, obj.args[i]? = some a → isCall a = true → x.available (p ++ [i]) = true

/-- The object that a coroutine is at. -/
def Phase.object : Phase T F V → Option (FunctionRequestImpl T F V)
  | lookup obj | secondary obj _ | direct obj _ | subsRunning obj _ | selfRunning obj _
  | returned obj _ _ | recording obj _ _ | acquired obj | awaiting obj _ => some obj
  | _ => none

/-- What holds when the coroutine for a request has come that far. -/
def Phase.Knows (x : Resolution T F V) (p : Position) (obj : FunctionRequestImpl T F V) :
    Phase T F V → Prop
  | flattening => ∀ a ∈ obj.args, isCall a = false
  | selfRunning _ _ => ArgsAvailable x p obj
  | returned _ _ _ | done _ => x.available p = true
  | _ => True

/-- The coroutine at a position of a resolution is where it should be. -/
structure Sits (x : Resolution T F V) (p : Position) (obj : FunctionRequestImpl T F V) : Prop where
  object : x.object p = some obj
  ctx : (x.activity p).ctx = p
  fits : ∀ obj', (x.activity p).phase.object = some obj' → Fits obj obj'
  knows : (x.activity p).phase.Knows x p obj

structure Placed (x : Resolution T F V) : Prop where
  inRange : x.outOfRange = false
  sits : ∀ p, (x.activity p).phase ≠ .idle → ∃ obj, Sits x p obj
  finished : ∀ c, (x.object c).isSome = true → (x.status c).almostFinished = true →
    ∃ q, q <+: c ∧ x.available q = true
  args : ∀ p obj, x.object p = some obj → x.available p = true →
    x.fromCache p = true ∨ ArgsAvailable x p obj

/-- A step of a coroutine that leaves it where it should be. -/
structure Effect.Proper (e : Effect T F V) (x : Resolution T F V) (p : Position)
    (obj : FunctionRequestImpl T F V) : Prop where
  fits : ∀ obj', e.phase.object = some obj' → Fits obj obj'
  knows : e.phase.Knows (x.proceed p e) p obj
  sync : ∀ as, e.subTasks = some (.sync as) → ∀ a ∈ as, isCall a = false
  async : ∀ as, e.subTasks = some (.async as) → as.length = obj.args.length
    ∧ ∀ (i : ℕ) a, as[i]? = some a → isCall a = true → obj.args[i]? = some a
  finished : (∃ st ∈ e.statuses, st.almostFinished = true) →
    x.available p = true ∨ e.produces = true
  produces : e.produces = true → e.cached = true ∨ ArgsAvailable x p obj

section
variable {x : Resolution T F V} {p : Position} {obj obj' : FunctionRequestImpl T F V}
  {task : Option ℕ}

theorem object_proceed (x : Resolution T F V) (p : Position) (e : Effect T F V) (q : Position) :
    (x.proceed p e).object q = x.object q := by
  simp only [Resolution.object, Resolution.proceed_request]

/-- What is available stays so. -/
theorem available_proceed {q : Position} (e : Effect T F V) (h : x.available q = true) :
    (x.proceed p e).available q = true := by
  rw [Resolution.proceed_available]
  by_cases hq : q = p
  · subst hq
    simp [h]
  · rwa [Function.update_of_ne hq]

theorem fromCache_proceed {q : Position} (e : Effect T F V) (h : x.fromCache q = true) :
    (x.proceed p e).fromCache q = true := by
  rw [Resolution.proceed_fromCache]
  by_cases hq : q = p
  · subst hq
    simp [h]
  · rwa [Function.update_of_ne hq]

theorem argsAvailable_proceed {q : Position} (e : Effect T F V) (h : ArgsAvailable x q obj) :
    ArgsAvailable (x.proceed p e) q obj :=
  fun i a ha hcall => available_proceed e (h i a ha hcall)

theorem knows_proceed {q : Position} (e : Effect T F V) {phase : Phase T F V}
    (h : phase.Knows x q obj) : phase.Knows (x.proceed p e) q obj := by
  cases phase with
  | selfRunning => exact argsAvailable_proceed e h
  | returned => exact available_proceed e h
  | done => exact available_proceed e h
  | _ => exact h

theorem available_self {e : Effect T F V} (h : x.available p = true ∨ e.produces = true) :
    (x.proceed p e).available p = true := by
  rw [Resolution.proceed_available, Function.update_self]
  simpa using h

theorem sits_proceed {e : Effect T F V} (h : Placed x) (hsits : Sits x p obj)
    (he : e.Proper x p obj) {q : Position} (hq : ((x.proceed p e).activity q).phase ≠ .idle) :
    ∃ obj, Sits (x.proceed p e) q obj := by
  by_cases hqp : q = p
  · subst hqp
    obtain ⟨hctx, hphase⟩ := x.proceed_activity_self (p := q) e
    refine ⟨obj, ?_, hctx.trans hsits.ctx, ?_, ?_⟩
    · rw [object_proceed, hsits.object]
    · rw [hphase]
      exact he.fits
    · rw [hphase]
      exact he.knows
  · rcases x.proceed_activity_cases e hqp with hsame | ⟨ts, i, a, hts, ha, hcall, rfl, hentered⟩
    · rw [hsame] at hq
      obtain ⟨obj', hobject, hctx, hfits, hknows⟩ := h.sits q hq
      refine ⟨obj', ?_, ?_, ?_, ?_⟩
      · rw [object_proceed, hobject]
      · rw [hsame, hctx]
      · rw [hsame]
        exact hfits
      · rw [hsame]
        exact knows_proceed e hknows
    · -- only `make_async_sub_tasks` creates coroutines here
      cases ts with
      | sync as =>
          have := he.sync as hts a (List.mem_of_getElem? ha)
          simp [hcall] at this
      | async as =>
          have hsub := object_concat hsits.object ((he.async as hts).2 i a ha hcall) hcall
          obtain ⟨obj', hobject⟩ := Option.isSome_iff_exists.mp hsub
          refine ⟨obj', ?_, ?_, ?_, ?_⟩
          · rw [object_proceed, hobject]
          · rw [hentered]
            simp [SubTasks.ctx, hsits.ctx]
          · simp [hentered, Phase.object]
          · rw [hentered]
            trivial

theorem placed_proceed {e : Effect T F V} (h : Placed x) (hsits : Sits x p obj)
    (he : e.Proper x p obj) : Placed (x.proceed p e) := by
  refine ⟨?_, fun q hq => sits_proceed h hsits he hq, fun c hc hst => ?_,
    fun q obj' hobject hq => ?_⟩
  · rw [Resolution.proceed_outOfRange, h.inRange]
  · rw [object_proceed] at hc
    rcases x.proceed_status_cases (p := p) e c with hsame | ⟨hbelow, halmost⟩
    · rw [hsame] at hst
      obtain ⟨q, hq, havailable⟩ := h.finished c hc hst
      exact ⟨q, hq, available_proceed e havailable⟩
    · rw [hsits.ctx] at hbelow
      exact ⟨p, hbelow, available_self (he.finished (halmost hst))⟩
  · rw [object_proceed] at hobject
    by_cases hold : x.available q = true
    · rcases h.args q obj' hobject hold with hfrom | hargs
      · exact .inl (fromCache_proceed e hfrom)
      · exact .inr (argsAvailable_proceed e hargs)
    · -- the value has just become available
      obtain rfl : q = p := by
        by_contra hne
        rw [Resolution.proceed_available, Function.update_of_ne hne] at hq
        exact hold hq
      obtain rfl := Option.some.inj (hobject.symm.trans hsits.object)
      rw [Resolution.proceed_available, Function.update_self] at hq
      rcases he.produces (by simpa [hold] using hq) with hcached | hargs
      · refine .inl ?_
        rw [Resolution.proceed_fromCache, Function.update_self]
        simp [hcached, hold]
      · exact .inr (argsAvailable_proceed e hargs)

/-- There is a subcontext for each argument. -/
theorem apply_eq_proceed {e : Effect T F V} (hsits : Sits x p obj) (he : e.Proper x p obj) :
    x.apply p e = x.proceed p e := by
  refine if_pos ?_
  rw [hsits.ctx, numSubs_eq hsits.object]
  unfold Effect.neededSubs
  split
  · rename_i as has
    exact (he.async as has).1.le
  · exact Nat.zero_le _

/-- Below an available value the values are available, down to one that came from a cache. -/
theorem available_or_fromCache (h : Placed x) {q d : Position} (hq : x.available q = true)
    (hd : (x.object (q ++ d)).isSome = true) :
    x.available (q ++ d) = true ∨ ∃ q', q' <+: q ++ d ∧ q' ≠ q ++ d ∧ x.fromCache q' = true := by
  induction d generalizing q with
  | nil =>
      rw [List.append_nil]
      exact .inl hq
  | cons i d ih =>
      obtain ⟨obj, a, hobject, ha, hcall⟩ := object_of_append hd
      rcases h.args q obj hobject hq with hfrom | hargs
      · exact .inr ⟨q, List.prefix_append _ _, by simp, hfrom⟩
      · have hsplit : q ++ i :: d = q ++ [i] ++ d := by simp
        rw [hsplit] at hd ⊢
        exact ih (hargs i a ha hcall) hd

/-! ## The steps are proper -/

/-- A step that creates no coroutine and finishes nothing. -/
theorem proper_of_quiet {e : Effect T F V} (hsub : e.subTasks = none)
    (hst : ∀ st ∈ e.statuses, st.almostFinished = false) (hproduces : e.produces = false)
    (hfits : ∀ obj', e.phase.object = some obj' → Fits obj obj')
    (hknows : e.phase.Knows (x.proceed p e) p obj) : e.Proper x p obj where
  fits := hfits
  knows := hknows
  sync := by simp [hsub]
  async := by simp [hsub]
  finished := by
    rintro ⟨st, hmem, halmost⟩
    simp [hst st hmem] at halmost
  produces := by simp [hproduces]

/-- A step that changes nothing but the phase, and goes on with the same object. -/
theorem proper_of_phase {phase : Phase T F V} (hsits : Sits x p obj)
    (hobject : phase.object = (x.activity p).phase.object) (hknows : ∀ y, phase.Knows y p obj) :
    Effect.Proper { phase } x p obj := by
  refine proper_of_quiet rfl (by simp) rfl (fun o ho => ?_) (hknows _)
  rw [hobject] at ho
  exact hsits.fits o ho

/-- A step with an available value. -/
theorem proper_of_available {e : Effect T F V} (hsub : e.subTasks = none)
    (hfits : ∀ obj', e.phase.object = some obj' → Fits obj obj')
    (hknows : e.phase.Knows (x.proceed p e) p obj)
    (h : x.available p = true ∨ e.produces = true)
    (hproduces : e.produces = true → e.cached = true ∨ ArgsAvailable x p obj) :
    e.Proper x p obj where
  fits := hfits
  knows := hknows
  sync := by simp [hsub]
  async := by simp [hsub]
  finished := fun _ => h
  produces := hproduces

theorem fits_leaveDirect (h : Fits obj obj') (result : Except AsyncExn V) :
    ∀ o, (leaveDirect obj' task result).object = some o → Fits obj o := by
  intro o ho
  unfold leaveDirect at ho
  split at ho
  · obtain rfl := Option.some.inj ho
    exact h
  · cases ho
  · cases ho

theorem knows_leaveDirect {result : Except AsyncExn V}
    (h : ∀ v, result = .ok v → x.available p = true) :
    (leaveDirect obj' task result).Knows x p obj := by
  unfold leaveDirect
  split
  · trivial
  · exact h _ rfl
  · trivial

theorem errorStatuses_quiet (e : AsyncExn) :
    ∀ st ∈ errorStatuses obj' e, st.almostFinished = false := by
  unfold errorStatuses
  split <;> simp [AsyncStatus.almostFinished]

theorem proper_resolveImpl {env : Env T F V K}
    (hflat : env.supportCaching = true → obj.props.impl.level.isValueBased = true →
      ∀ a ∈ obj.args, isCall a = false) : (resolveImpl env obj).Proper x p obj := by
  unfold resolveImpl
  split
  · exact proper_of_quiet rfl (by simp) rfl (by simp [Phase.object, Fits.refl]) trivial
  · rename_i hcached
    split
    · rename_i hvalue
      have hnone := hflat (by simp_all) hvalue
      refine ⟨by simp [Phase.object], hnone, ?_, by simp, by simp, by simp⟩
      intro as has
      obtain rfl : obj.args = as := by simpa using has
      exact hnone
    · exact proper_of_quiet rfl (by simp) rfl (by simp [Phase.object, Fits.refl]) trivial

theorem proper_finishClone {res : Except AsyncExn (List V)}
    (h : ∀ vs, res = .ok vs → vs.length = obj.args.length)
    (hflat : ∀ a ∈ obj.args, isCall a = false) : (finishClone obj res).Proper x p obj := by
  cases res with
  | error e =>
      exact proper_of_quiet rfl (by simp [finishClone]) rfl (by simp [finishClone, Phase.object])
        trivial
  | ok vs =>
      have hfits : ∀ u, Fits obj (obj.flattened u vs) := fun u => fits_flattened (h vs rfl) hflat
      rw [finishClone]
      cases hu : obj.props.uuid.makeCloneUuid with
      | ok u =>
          rw [makeFlattenedClone_eq hu]
          exact proper_of_quiet rfl (by simp) rfl (by simp [Phase.object, hfits]) trivial
      | error e =>
          have hclone : obj.makeFlattenedClone vs = .error e := by
            simp only [FunctionRequestImpl.makeFlattenedClone, hu]
            rfl
          rw [hclone]
          exact proper_of_quiet rfl (by simp) rfl (by simp [Phase.object]) trivial

/-- A normalizer has a plain value for its argument. -/
theorem argsAvailable_of_normalized [DecidableEq T] {v : V} (h : obj'.normalized = some v)
    (hfits : Fits obj obj') : ArgsAvailable x p obj := by
  intro i a ha hcall
  obtain ⟨type, hargs⟩ := args_of_normalized h
  rw [← hfits.calls i a hcall, hargs] at ha
  obtain rfl := List.mem_singleton.mp (List.mem_of_getElem? ha)
  cases hcall

theorem proper_resolveAsync [DecidableEq T] (h : Fits obj obj') :
    (resolveAsync obj' task).Proper x p obj := by
  unfold resolveAsync
  split
  · rename_i v hcontainment hnormalized
    exact proper_of_available rfl (fits_leaveDirect h _)
      (knows_leaveDirect fun _ _ => available_self (.inr rfl)) (.inr rfl)
      fun _ => .inr (argsAvailable_of_normalized hnormalized h)
  · refine ⟨?_, trivial, by simp, ?_, by simp [AsyncStatus.almostFinished], by simp⟩
    · intro o ho
      obtain rfl := Option.some.inj ho
      exact h
    · intro as has
      obtain rfl : obj'.args = as := by simpa using has
      exact ⟨h.length_eq, fun i a ha hcall => (h.calls i a hcall).mp ha⟩

theorem proper_runSelf (h : Fits obj obj') (res : Except AsyncExn (List V))
    (hargs : ∀ vs, res = .ok vs → ArgsAvailable x p obj) :
    (runSelf obj' task res).Proper x p obj := by
  cases res with
  | error e =>
      exact proper_of_quiet rfl (errorStatuses_quiet e) rfl (fits_leaveDirect h _)
        (knows_leaveDirect (by simp))
  | ok vs =>
      refine proper_of_quiet rfl (by simp [runSelf, AsyncStatus.almostFinished]) rfl ?_
        (argsAvailable_proceed _ (hargs vs rfl))
      intro o ho
      obtain rfl := Option.some.inj ho
      exact h

theorem proper_finishCached (res : Except AsyncExn V) : (finishCached res).Proper x p obj := by
  cases res with
  | error e =>
      exact proper_of_quiet rfl (by simp [finishCached]) rfl (by simp [finishCached, Phase.object])
        trivial
  | ok v =>
      exact proper_of_available rfl (by simp [finishCached, Phase.object])
        (available_self (.inr rfl)) (.inr rfl) fun _ => .inl rfl

end

theorem length_results {x : Resolution T F V} {p : Position} {as : List (FunctionRequest T F V)}
    {i : ℕ} {vs : List V} (h : x.results p as i = some (.ok vs)) : vs.length = as.length := by
  induction as generalizing i vs with
  | nil =>
      simp only [Resolution.results, Option.some.injEq, Except.ok.injEq] at h
      rw [← h]
      rfl
  | cons a as ih =>
      obtain ⟨v, vs', -, hrs, rfl⟩ := Resolution.results_cons_ok h
      rw [List.length_cons, ih hrs, List.length_cons]

/-- The coroutines for the arguments have ended with values. -/
theorem done_of_results {x : Resolution T F V} {p : Position} {as : List (FunctionRequest T F V)}
    {i : ℕ} {vs : List V} (h : x.results p as i = some (.ok vs)) {j : ℕ}
    {a : FunctionRequest T F V} (ha : as[j]? = some a) (hcall : isCall a = true) :
    ∃ v, (x.activity (p ++ [i + j])).phase = .done v := by
  induction as generalizing i j vs with
  | nil => simp at ha
  | cons b as ih =>
      obtain ⟨v, vs', hr, hrs, -⟩ := Resolution.results_cons_ok h
      cases j with
      | zero =>
          obtain rfl := Option.some.inj ha
          rcases Resolution.resultOf_call hr hcall with ⟨w, -, hdone⟩ | ⟨e, he, -⟩
          · exact ⟨w, hdone⟩
          · cases he
      | succ j =>
          rw [show i + (j + 1) = i + 1 + j by omega]
          exact ih hrs ha

/-- Every step of a coroutine in its place is proper, unless it flattens requests. -/
theorem move_proper [DecidableEq T] [DecidableEq K] {env : Env T F V K} {s : System T F V K}
    {t : ℕ} {p : Position} {e : Effect T F V} {cache : MemoryCache K V}
    {obj : FunctionRequestImpl T F V} (h : Move env s t p e cache)
    (hplaced : Placed (s.resolution t)) (hsits : Sits (s.resolution t) p obj)
    (hflat : env.supportCaching = true → obj.props.impl.level.isValueBased = true →
      ∀ a ∈ obj.args, isCall a = false) :
    e.Proper (s.resolution t) p obj := by
  have hfits := hsits.fits
  have hknows := hsits.knows
  cases h with
  | resolveImpl obj' hphase hobject =>
      obtain rfl := Option.some.inj (hsits.object.symm.trans hobject)
      exact proper_resolveImpl hflat
  | finishClone obj' res hphase hobject hres =>
      obtain rfl := Option.some.inj (hsits.object.symm.trans hobject)
      rw [hphase] at hknows
      refine proper_finishClone (fun vs hvs => ?_) hknows
      subst hvs
      exact length_results hres
  | join obj' cache hphase hcache =>
      exact proper_of_phase hsits (by rw [hphase]; rfl) fun _ => trivial
  | create obj' cache n phase hphase hcache hnext =>
      rcases hnext with rfl | rfl
      · exact proper_of_phase hsits (by rw [hphase]; rfl) fun _ => trivial
      · exact proper_of_phase hsits (by rw [hphase]; rfl) fun _ => trivial
  | secondaryMiss obj' n hphase =>
      exact proper_of_phase hsits (by rw [hphase]; rfl) fun _ => trivial
  | secondaryEnd obj' n result hphase hresult =>
      exact proper_of_phase hsits (by rw [hphase]; rfl) fun _ => trivial
  | resolveAsync obj' task hphase =>
      exact proper_resolveAsync (hfits obj' (by rw [hphase]; rfl))
  | runSelf obj' task res hphase hres =>
      have hfit := hfits obj' (by rw [hphase]; rfl)
      refine proper_runSelf hfit res fun vs hvs i a ha hcall => ?_
      subst hvs
      obtain ⟨v, hdone⟩ := done_of_results hres ((hfit.calls i a hcall).mpr ha) hcall
      rw [Nat.zero_add] at hdone
      obtain ⟨o, ho⟩ := hplaced.sits (p ++ [i]) (by simp [hdone])
      have hvalue := ho.knows
      rw [hdone] at hvalue
      exact hvalue
  | returns obj' task v hphase =>
      have := hfits obj' (by rw [hphase]; rfl)
      rw [hphase] at hknows
      exact proper_of_available rfl (by simpa [Phase.object] using this)
        (available_self (.inr rfl)) (.inr rfl) fun _ => .inr hknows
  | throws obj' task e hphase hcancelled =>
      exact proper_of_quiet rfl (errorStatuses_quiet e) rfl
        (fits_leaveDirect (hfits obj' (by rw [hphase]; rfl)) _) (knows_leaveDirect (by simp))
  | cancelDelegate obj' task hphase =>
      have := hfits obj' (by rw [hphase]; rfl)
      rw [hphase] at hknows
      exact proper_of_quiet rfl (by simp [AsyncStatus.almostFinished]) rfl
        (by simpa [Phase.object] using this) (argsAvailable_proceed _ hknows)
  | leave obj' task v result hphase hresult =>
      rw [hphase] at hknows
      exact proper_of_available rfl (fits_leaveDirect (hfits obj' (by rw [hphase]; rfl)) _)
        (knows_leaveDirect fun _ _ => available_proceed _ hknows) (.inl hknows) (by simp)
  | record obj' n result result' hphase hresult =>
      exact proper_of_phase hsits (by rw [hphase]; rfl) fun _ => trivial
  | await obj' r hphase hrecord =>
      exact proper_of_phase hsits (by rw [hphase]; rfl) fun _ => trivial
  | finishCached obj' n result hphase houtcome => exact proper_finishCached result
  | retry e hphase => exact proper_of_quiet rfl (by simp) rfl (by simp [Phase.object]) trivial
  | giveUp e e' hphase he =>
      exact proper_of_quiet rfl (by simp) rfl (by simp [Phase.object]) trivial

/-! ## Runs -/

/-- The contexts of requests are not finished to begin with. -/
theorem status_created {x : Resolution T F V} {c : Position}
    (hnew : x.status = ({ request := x.request } : Resolution T F V).status)
    (h : (x.object c).isSome = true) : x.status c = .created := by
  obtain ⟨obj, hobject⟩ := Option.isSome_iff_exists.mp h
  obtain ⟨props, f, containment, hr, -⟩ := exists_of_object hobject
  simp only [hnew, sub_contextTree, hr]
  rfl

/-- Every resolution without requests to flatten is placed. -/
def AllPlaced (env : Env T F V K) (s : System T F V K) : Prop :=
  ∀ t, (env.supportCaching = true → ValueBasedFlat (s.resolution t).request) →
    Placed (s.resolution t)

theorem allPlaced_initial {env : Env T F V K} (r : FunctionRequest T F V) :
    AllPlaced env (System.initial r) := by
  intro t _
  refine ⟨rfl, fun p hp => absurd rfl hp, fun c hc hst => ?_, fun p obj _ hp => by cases hp⟩
  rw [status_created rfl hc] at hst
  cases hst

theorem placed_resolve {r : FunctionRequest T F V} (h : isCall r = true) (usingResult : Bool) :
    Placed { request := r
             usingResult
             activity := Function.update (fun _ => {}) [] { phase := .entered } } := by
  refine ⟨rfl, fun p hp => ?_, fun c hc hst => ?_, fun p obj _ hp => by cases hp⟩
  · obtain rfl : p = [] := by
      by_contra hne
      simp [Function.update_of_ne hne] at hp
    cases r with
    | value t v => cases h
    | call props f c as =>
        exact ⟨.ofRequest props f c as, rfl, rfl, by simp [Phase.object], trivial⟩
  · rw [status_created rfl hc] at hst
    cases hst

theorem placed_cancel {x : Resolution T F V} (h : Placed x) :
    Placed { x with cancelled := true } := by
  obtain ⟨hrange, hsits, hfinished, hargs⟩ := h
  refine ⟨hrange, fun p hp => ?_, hfinished, hargs⟩
  obtain ⟨obj, hobject, hctx, hfits, hknows⟩ := hsits p hp
  refine ⟨obj, hobject, hctx, hfits, ?_⟩
  cases hphase : (x.activity p).phase <;> simp_all [Phase.Knows, ArgsAvailable]

section
variable [DecidableEq T] [DecidableEq K] {env : Env T F V K} {s s' : System T F V K}

theorem proper_advance {t : ℕ} {p : Position} {e : Effect T F V} {cache : MemoryCache K V}
    {obj : FunctionRequestImpl T F V} (h : Move env s t p e cache)
    (hplaced : Placed (s.resolution t)) (hsits : Sits (s.resolution t) p obj)
    (hflat : env.supportCaching = true → ValueBasedFlat (s.resolution t).request) :
    e.Proper (s.resolution t) p obj := by
  refine move_proper h hplaced hsits fun hcaching hvalue => ?_
  obtain ⟨props, f, c, hr, hobj⟩ := exists_of_object hsits.object
  rw [hobj] at hvalue
  exact hflat hcaching p props f c obj.args hr hvalue

/-- The steps on one of the resolutions. -/
theorem placed_advance {t : ℕ} {p : Position} {input : Input V}
    {r : Effect T F V × MemoryCache K V} (h : s.effect env t p input = some r)
    (hplaced : Placed (s.resolution t))
    (hflat : env.supportCaching = true → ValueBasedFlat (s.resolution t).request) :
    Placed ((s.resolution t).apply p r.1) := by
  have hmove := effect_cases h
  obtain ⟨obj, hsits⟩ := hplaced.sits p (ne_idle_of_move hmove)
  have hproper := proper_advance hmove hplaced hsits hflat
  rw [apply_eq_proceed hsits hproper]
  exact placed_proceed hplaced hsits hproper

theorem step_allPlaced {e : Event T F V K} (h : s.step env e = some s')
    (hplaced : AllPlaced env s) : AllPlaced env s' := by
  intro t hflat
  cases e with
  | resolve r usingResult =>
      simp only [System.step] at h
      split at h
      · rename_i hcall
        obtain rfl := Option.some.inj h
        by_cases ht : t = s.numResolutions
        · subst ht
          simp only [Function.update_self]
          exact placed_resolve hcall usingResult
        · simp only [Function.update_of_ne ht] at hflat ⊢
          exact hplaced t hflat
      · cases h
  | cancel t₁ =>
      obtain rfl := Option.some.inj h
      by_cases ht : t = t₁
      · subst ht
        simp only [Function.update_self] at hflat ⊢
        exact placed_cancel (hplaced t hflat)
      · simp only [Function.update_of_ne ht] at hflat ⊢
        exact hplaced t hflat
  | advance t₁ p input =>
      obtain ⟨r, hr, rfl⟩ := Option.map_eq_some_iff.mp h
      by_cases ht : t = t₁
      · subst ht
        simp only [Function.update_self] at hflat ⊢
        rw [Resolution.apply_request] at hflat
        exact placed_advance hr (hplaced t hflat) hflat
      · simp only [Function.update_of_ne ht] at hflat ⊢
        exact hplaced t hflat
  | evict key =>
      simp only [System.step, Option.bind_eq_some_iff] at h
      obtain ⟨r, -, h⟩ := h
      split at h
      · obtain rfl := Option.some.inj h
        exact hplaced t hflat
      · cases h

theorem allPlaced_of_reachable
    (h : Transition.Reachable (System.step env) (fun _ _ => True) {s | ∃ r, s = .initial r} s) :
    AllPlaced env s := by
  refine h.invariant ?_ fun s s' e hplaced _ hstep => step_allPlaced hstep hplaced
  rintro s ⟨r, rfl⟩
  exact allPlaced_initial r

/-- In a request tree whose value-based requests have plain values for arguments, each request
is resolved on the context at its own position, and changes the status of no context outside of
its subtree. -/
theorem follows_of_valueBasedFlat
    (h : Transition.Reachable (System.step env) (fun _ _ => True) {s | ∃ r, s = .initial r} s)
    (t : ℕ) (hflat : env.supportCaching = true → ValueBasedFlat (s.resolution t).request) :
    (s.resolution t).Follows
      ∧ ∀ p input s', s.step env (.advance t p input) = some s' → ∀ t' c,
        (s'.resolution t').status c ≠ (s.resolution t').status c → t' = t ∧ p <+: c := by
  have hplaced := allPlaced_of_reachable h t hflat
  refine ⟨⟨hplaced.inRange, fun p hp => ?_, fun c hc hst => ?_⟩, ?_⟩
  · obtain ⟨obj, hsits⟩ := hplaced.sits p hp
    exact hsits.ctx
  · obtain ⟨q, ⟨d, rfl⟩, hq⟩ := hplaced.finished c hc hst
    exact available_or_fromCache hplaced hq hc
  · intro p input s' hstep t' c hne
    obtain ⟨r, hr, rfl⟩ := Option.map_eq_some_iff.mp hstep
    by_cases ht : t' = t
    · subst ht
      refine ⟨rfl, ?_⟩
      have hmove := effect_cases hr
      obtain ⟨obj, hsits⟩ := hplaced.sits p (ne_idle_of_move hmove)
      have hproper := proper_advance hmove hplaced hsits hflat
      simp only [Function.update_self, apply_eq_proceed hsits hproper] at hne
      rcases (s.resolution t').proceed_status_cases (p := p) r.1 c with hsame | ⟨hbelow, -⟩
      · exact absurd hsame hne
      · rwa [hsits.ctx] at hbelow
    · simp only [Function.update_of_ne ht] at hne
      exact absurd rfl hne

end

/-! ## Examples -/

/-- A property set for requests of one function. -/
def propsOf (level : CachingLevel) : OriginalProps Unit where
  impl := { valueType := (), level }
  uuid := { base := "f".toList, level := some level }
  clonable := by cases level <;> exact ⟨_, rfl⟩

/-- A cached request on an uncached one. -/
def nested : FunctionRequest Unit ℕ ℕ :=
  .call (propsOf .memory) 0 none [.call (propsOf .none) 1 none []]

/-- The steps of a coroutine that waits for nothing. -/
def goes (t : ℕ) (p : Position) (n : ℕ) : List (Event Unit ℕ ℕ RequestUuid) :=
  List.replicate n (.advance t p .go)

/-- Resolve the request. -/
def resolveNested : List (Event Unit ℕ ℕ RequestUuid) :=
  [.resolve nested false] ++ goes 0 [] 3 ++ goes 0 [0] 3 ++ [.advance 0 [0] (.returns 5)]
    ++ goes 0 [0] 1 ++ goes 0 [] 1 ++ [.advance 0 [] (.returns 7)] ++ goes 0 [] 4

/-- Resolve it again. -/
def resolveAgain : List (Event Unit ℕ ℕ RequestUuid) :=
  resolveNested ++ [.resolve nested false] ++ goes 1 [] 4

theorem follows_resolveNested :
    ∃ s, Transition.run (System.step uuidEnv) (.initial nested) resolveNested = some s
      ∧ (s.resolution 0).status [0] = .finished ∧ (s.resolution 0).Follows := by
  obtain ⟨s, hrun⟩ : ∃ s, Transition.run (System.step uuidEnv) (.initial nested)
      resolveNested = some s := Option.isSome_iff_exists.mp (by decide +kernel)
  have hs : (Transition.run (System.step uuidEnv) (.initial nested) resolveNested).map
      (fun s => ((s.resolution 0).status [0], decide (ValueBasedFlat (s.resolution 0).request)))
      = some (.finished, true) := by
    decide +kernel
  rw [hrun] at hs
  simp only [Option.map_some, Option.some.injEq, Prod.mk.injEq, decide_eq_true_eq] at hs
  have hstart : Transition.Reachable (System.step uuidEnv) (fun _ _ => True)
      {s | ∃ r, s = .initial r} (.initial nested) := .start ⟨nested, rfl⟩
  exact ⟨s, hrun, hs.1, (follows_of_valueBasedFlat (hstart.run hrun) 0 fun _ => hs.2).1⟩

/-- A value-based request on two requests, with one argument and with three. -/
def flattening : FunctionRequest Unit ℕ ℕ :=
  .call (propsOf .memoryVb) 0 none [.call (propsOf .none) 1 none [.value () 1],
    .call (propsOf .none) 1 none [.value () 1, .value () 2, .value () 3]]

/-- The first argument is resolved, and the second one started. -/
def resolveFlattening : List (Event Unit ℕ ℕ RequestUuid) :=
  [.resolve flattening false] ++ goes 0 [] 1 ++ goes 0 [0] 3 ++ [.advance 0 [0] (.returns 5)]
    ++ goes 0 [0] 1 ++ goes 0 [1] 2

/-- When a value comes from the cache, the context of its argument gets finished without a value.
And the arguments of a value-based request finish its context before it has a value, and look for
subcontexts that it does not have. -/
theorem not_finishedOwn :
    (∃ s, Transition.Reachable (System.step uuidEnv) (fun _ _ => True)
        {s | ∃ r, s = .initial r} s
      ∧ ValueBasedFlat (s.resolution 1).request ∧ ¬ (s.resolution 1).FinishedOwn)
    ∧ ∃ s, Transition.Reachable (System.step uuidEnv) (fun _ _ => True)
        {s | ∃ r, s = .initial r} s
      ∧ ((s.resolution 0).activity [0]).ctx = [] ∧ (s.resolution 0).outOfRange = true
      ∧ ¬ (s.resolution 0).FinishedOwn := by
  have hstart : ∀ r, Transition.Reachable (System.step uuidEnv) (fun _ _ => True)
      {s | ∃ r, s = .initial r} (.initial r) := fun r => .start ⟨r, rfl⟩
  constructor
  · obtain ⟨s, hrun⟩ : ∃ s, Transition.run (System.step uuidEnv) (.initial nested)
        resolveAgain = some s := Option.isSome_iff_exists.mp (by decide +kernel)
    have hs : (Transition.run (System.step uuidEnv) (.initial nested) resolveAgain).map
        (fun s => (decide (ValueBasedFlat (s.resolution 1).request),
          ((s.resolution 1).object [0]).isSome, (s.resolution 1).status [0],
          (s.resolution 1).available [0])) = some (true, true, .finished, false) := by
      decide +kernel
    rw [hrun] at hs
    simp only [Option.map_some, Option.some.injEq, Prod.mk.injEq, decide_eq_true_eq] at hs
    obtain ⟨hflat, hobject, hstatus, havailable⟩ := hs
    refine ⟨s, (hstart nested).run hrun, hflat, fun hown => ?_⟩
    have := hown [0] hobject (by rw [hstatus]; rfl)
    simp [havailable] at this
  · obtain ⟨s, hrun⟩ : ∃ s, Transition.run (System.step uuidEnv) (.initial nested)
        resolveFlattening = some s := Option.isSome_iff_exists.mp (by decide +kernel)
    have hs : (Transition.run (System.step uuidEnv) (.initial nested) resolveFlattening).map
        (fun s => (((s.resolution 0).activity [0]).ctx, (s.resolution 0).outOfRange,
          ((s.resolution 0).object []).isSome, (s.resolution 0).status [],
          (s.resolution 0).available []))
        = some ([], true, true, .finished, false) := by
      decide +kernel
    rw [hrun] at hs
    simp only [Option.map_some, Option.some.injEq, Prod.mk.injEq] at hs
    obtain ⟨hctx, hrange, hobject, hstatus, havailable⟩ := hs
    refine ⟨s, (hstart nested).run hrun, hctx, hrange, fun hown => ?_⟩
    have := hown [] hobject (by rw [hstatus]; rfl)
    simp [havailable] at this

end Cradle.Async
