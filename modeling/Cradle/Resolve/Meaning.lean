import Cradle.Resolve.Request
import Mathlib.Data.List.TakeWhile

/-!
# What request keys stand for

Requests are stored under keys that do not contain their functions.  If each uuid
stands for one function (`meaning`), then a key has a value of its own, `evalId`, and
equal keys come from requests with equal values.  A flattened clone has the value of
the request it was made from, provided that it can be made: a uuid that is flattened
already is refused, and a clone whose uuid is that of a normalizer is not called.
-/

namespace Cradle.Resolve

variable {T V : Type*} {typeOf : V → T}

/-! ## Uuids of clones -/

namespace RequestUuid

theorem not_mem_makeBaseString (orig : List Char) : '+' ∉ makeBaseString orig := by
  intro h
  simpa using List.mem_takeWhile_imp h

/-- The uuid of the clone, if there is one. -/
def flatClone (u : RequestUuid) : RequestUuid where
  base := makeBaseString u.base
  level := u.level
  flattened := true
  isProxy := u.isProxy

theorem makeCloneUuid_eq {u : RequestUuid} (hflat : u.flattened = false)
    (hbase : makeBaseString u.base ≠ []) : u.makeCloneUuid = .ok u.flatClone := by
  have hofBase : ofBase (makeBaseString u.base) = .ok { base := makeBaseString u.base } := by
    rw [ofBase, if_neg hbase, if_neg (not_mem_makeBaseString _)]
  obtain ⟨base, finalized, level, flattened, isProxy⟩ := u
  obtain rfl : flattened = false := hflat
  simp only [makeCloneUuid, clone] at hofBase ⊢
  rw [hofBase]
  cases level <;> cases isProxy <;> rfl

/-- A text without `+` that starts a uuid with an extension starts its base. -/
private theorem prefix_of_append_ext {l base rest : List Char} (hl : '+' ∉ l)
    (h : l <+: base ++ '+' :: rest) : l <+: base := by
  have hbase : base <+: base ++ '+' :: rest := List.prefix_append base _
  by_cases hlen : l.length ≤ base.length
  · exact List.prefix_of_prefix_length_le h hbase hlen
  · have hplus : base ++ ['+'] <+: base ++ '+' :: rest := by simp
    have : base ++ ['+'] <+: l := List.prefix_of_prefix_length_le hplus h (by simp; omega)
    exact absurd (this.subset (by simp)) hl

/-- The uuid of a clone has an extension. -/
theorem str_flatClone (u : RequestUuid) :
    ∃ rest, u.flatClone.str = makeBaseString u.base ++ '+' :: rest := by
  simp only [flatClone, str, Bool.false_eq_true, if_false, if_true, List.append_assoc,
    List.append_cancel_left_eq]
  cases u.level with
  | none => exact ⟨_, rfl⟩
  | some level => cases level <;> exact ⟨_, rfl⟩

theorem base_prefix_str (u : RequestUuid) : u.base <+: u.str := by
  rw [str]
  split
  · exact List.prefix_rfl
  · simp only [List.append_assoc]
    exact List.prefix_append _ _

/-- The clone of a request is a normalizer only if the request is named like one. -/
theorem isNormalizer_of_flatClone {u : RequestUuid} (h : isNormalizer u.flatClone.str = true) :
    isNormalizer u.str = true := by
  have hl : '+' ∉ "normalization<".toList := by decide
  simp only [isNormalizer, List.isPrefixOf_iff_prefix] at h ⊢
  generalize "normalization<".toList = l at *
  obtain ⟨rest, hstr⟩ := u.str_flatClone
  rw [hstr] at h
  have hbase : makeBaseString u.base <+: u.base := List.takeWhile_prefix _
  exact ((prefix_of_append_ext hl h).trans hbase).trans u.base_prefix_str

end RequestUuid

/-! ## Values of keys -/

section
variable [DecidableEq T] (typeOf) (meaning : List Char → List V → Except Exn V)

mutual
/-- The value of the requests with a given key, `none` if their evaluation throws. -/
def evalId : RequestId T V → Option V
  | .value v => some v
  | .call _ impl uuid args =>
      (normalized typeOf impl uuid args).or
        ((evalIds args).bind fun vs => (meaning uuid vs).toOption)
def evalIds : List (RequestId T V) → Option (List V)
  | [] => some []
  | i :: is => (evalId i).bind fun v => (evalIds is).map (v :: ·)
end

end

/-- Every function request in the tree satisfies `P`. -/
inductive Request.All
    (P : (p : RequestProps T) → TypedFunction typeOf p.impl.valueType → Prop) :
    Request typeOf → Prop
  | value (v : V) : All P (.value v)
  | call {p : RequestProps T} {f : TypedFunction typeOf p.impl.valueType}
      {args : List (Request typeOf)} (h : P p f) (hargs : ∀ a ∈ args, All P a) :
      All P (.call p f args)

/-- Equal uuids mean the same function.  The clone of a value-based request is a
request too: it has the function of the original, under its own uuid. -/
def Request.Consistent (meaning : List Char → List V → Except Exn V) : Request typeOf → Prop :=
  Request.All fun p f => f.run = meaning p.uuid.str ∧ (p.impl.level.isValueBased = true →
    ∀ uuid, p.uuid.makeCloneUuid = .ok uuid → f.run = meaning uuid.str)

/-- The value-based requests in the tree can be cloned: their uuids have a base and are
not flattened, and a coroutine that is named like a normalizer is one. -/
def Request.Clonable : Request typeOf → Prop :=
  Request.All fun p f => p.impl.level.isValueBased = true →
    p.uuid.flattened = false ∧ RequestUuid.makeBaseString p.uuid.base ≠ []
      ∧ (p.impl.functionType = .coro → RequestUuid.isNormalizer p.uuid.str = true →
        ∀ v, typeOf v = p.impl.valueType → f.run [v] = .ok v)

section
variable [DecidableEq T] {meaning : List Char → List V → Except Exn V}

mutual
theorem Request.eval_eq_evalId :
    ∀ r : Request typeOf, r.Consistent meaning → r.eval = evalId typeOf meaning r.id
  | .value v, _ => rfl
  | .call p f args, h => by
      obtain _ | ⟨⟨hf, -⟩, hargs⟩ := h
      simp only [Request.eval, Request.id, evalId, Request.evalAll_eq_evalIds args hargs, hf]
theorem Request.evalAll_eq_evalIds :
    ∀ rs : List (Request typeOf), (∀ r ∈ rs, r.Consistent meaning) →
      Request.evalAll rs = evalIds typeOf meaning (Request.ids rs)
  | [], _ => rfl
  | r :: rs, h => by
      simp only [Request.evalAll, Request.ids, evalIds, Request.eval_eq_evalId r (h r (by simp)),
        Request.evalAll_eq_evalIds rs fun r' hr' => h r' (by simp [hr'])]
end

omit [DecidableEq T] in
theorem TypedFunction.typeOf_of_run {t : T} (f : TypedFunction typeOf t) {vs : List V} {v : V}
    (h : (f.run vs).toOption = some v) : typeOf v = t := by
  refine f.typed vs v ?_
  cases hrun : f.run vs with
  | error e => simp [hrun, Except.toOption] at h
  | ok v' => simpa [hrun, Except.toOption] using h

/-- The value of a request has the type that the request is declared with. -/
theorem Request.typeOf_eval {p : RequestProps T} {f : TypedFunction typeOf p.impl.valueType}
    {args : List (Request typeOf)} {v : V} (h : (Request.call p f args).eval = some v) :
    typeOf v = p.impl.valueType := by
  rw [Request.eval, Option.or_eq_some_iff] at h
  rcases h with hv | ⟨-, h⟩
  · unfold normalized at hv
    split at hv
    · split at hv
      · next hcond =>
          obtain rfl := Option.some.inj hv
          exact hcond.2.1
      · simp at hv
    · simp at hv
  · obtain ⟨vs, -, hv⟩ := Option.bind_eq_some_iff.mp h
    exact f.typeOf_of_run hv

theorem evalId_capturedId (p : RequestProps T) (f : TypedFunction typeOf p.impl.valueType)
    (args : List (Request typeOf)) : evalId typeOf meaning (p.capturedId (Request.ids args))
      = evalId typeOf meaning (Request.call p f args).id := by
  rw [RequestProps.capturedId, Request.id, evalId, evalId]

/-! ## Clones -/

theorem evalIds_values (vs : List V) : evalIds typeOf meaning (vs.map .value) = some vs := by
  induction vs with
  | nil => rfl
  | cons v vs ih => simp [evalIds, evalId, ih]

omit [DecidableEq T] in
theorem Request.eq_of_ids_eq {args : List (Request typeOf)} {v : V}
    (h : Request.ids args = [.value v]) : args = [.value v] := by
  cases args with
  | nil => simp [Request.ids] at h
  | cons a args =>
      simp only [Request.ids, List.cons.injEq] at h
      cases a with
      | call p f args => simp [Request.id] at h
      | value v' =>
          cases args with
          | cons b args => simp [Request.ids] at h
          | nil => simpa [Request.id] using h.1

theorem Request.evalAll_value (v : V) :
    Request.evalAll [(.value v : Request typeOf)] = some [v] := by
  simp [Request.evalAll, Request.eval]

/-- Where a normalizer is skipped, calling it would have given the same. -/
private theorem normalized_eq_run {impl : ImplType T} {uuid : List Char}
    {f : TypedFunction typeOf impl.valueType} {ids : List (RequestId T V)} {v : V}
    (hnorm : impl.functionType = .coro → RequestUuid.isNormalizer uuid = true →
      ∀ v, typeOf v = impl.valueType → f.run [v] = .ok v)
    (h : normalized typeOf impl uuid ids = some v) : ids = [.value v] ∧ f.run [v] = .ok v := by
  unfold normalized at h
  split at h
  · split at h
    · next hcond =>
        obtain rfl := Option.some.inj h
        exact ⟨rfl, hnorm hcond.1 hcond.2.2 _ hcond.2.1⟩
    · simp at h
  · simp at h

/-- The clone of a value-based request has a uuid, and its key the value of the
request. -/
theorem clone_spec {p : RequestProps T} {f : TypedFunction typeOf p.impl.valueType}
    {args : List (Request typeOf)} (hcons : (Request.call p f args).Consistent meaning)
    (hclon : (Request.call p f args).Clonable) (hvb : p.impl.level.isValueBased = true) :
    p.uuid.makeCloneUuid = .ok p.uuid.flatClone ∧ f.run = meaning p.uuid.flatClone.str
      ∧ (Request.call p f args).eval = (Request.evalAll args).bind (fun vs => (f.run vs).toOption)
      ∧ ∀ vs, evalId typeOf meaning ((p.flattened p.uuid.flatClone).capturedId (vs.map .value))
        = (f.run vs).toOption := by
  obtain _ | ⟨⟨-, hclone⟩, -⟩ := hcons
  obtain _ | ⟨hclon, -⟩ := hclon
  obtain ⟨hflat, hbase, hnorm⟩ := hclon hvb
  have huuid := RequestUuid.makeCloneUuid_eq hflat hbase
  have hmeaning := hclone hvb _ huuid
  refine ⟨huuid, hmeaning, ?_, fun vs => ?_⟩
  · rw [Request.eval]
    cases hv : normalized typeOf p.impl p.uuid.str (Request.ids args) with
    | none => rw [Option.none_or]
    | some v =>
        obtain ⟨hids, hrun⟩ := normalized_eq_run hnorm hv
        rw [Request.eq_of_ids_eq hids, Request.evalAll_value, Option.bind_some, hrun]
        rfl
  · rw [RequestProps.capturedId, evalId, evalIds_values, Option.bind_some, RequestProps.flattened,
      ← hmeaning]
    cases hv : normalized typeOf { p.impl with level := p.impl.level.toCompositionBased }
        p.uuid.flatClone.str (vs.map .value) with
    | none => rw [Option.none_or]
    | some v =>
        obtain ⟨hids, hrun⟩ := normalized_eq_run (f := f)
          (fun hcoro hname => hnorm hcoro (RequestUuid.isNormalizer_of_flatClone hname)) hv
        obtain rfl : vs = [v] :=
          (List.map_inj_right fun _ _ h => RequestId.value.inj h).mp hids
        rw [hrun]
        rfl

end

/-! ## Heights -/

mutual
/-- The height of the tree below a key. -/
def RequestId.height : RequestId T V → ℕ
  | .value _ => 0
  | .call _ _ _ args => RequestId.heights args + 1
def RequestId.heights : List (RequestId T V) → ℕ
  | [] => 0
  | i :: is => max i.height (RequestId.heights is)
end

@[simp] theorem RequestId.heights_values (vs : List V) :
    RequestId.heights (T := T) (vs.map .value) = 0 := by
  induction vs with
  | nil => rfl
  | cons v vs ih => simp [RequestId.heights, RequestId.height, ih]

theorem height_le_heights {a : Request typeOf} {args : List (Request typeOf)} (h : a ∈ args) :
    a.id.height ≤ RequestId.heights (Request.ids args) := by
  induction args with
  | nil => simp at h
  | cons b args ih =>
      rw [Request.ids, RequestId.heights]
      rcases List.mem_cons.mp h with rfl | h
      · exact Nat.le_max_left _ _
      · exact (ih h).trans (Nat.le_max_right _ _)

@[simp] theorem RequestProps.height_capturedId (p : RequestProps T) (ids : List (RequestId T V)) :
    (p.capturedId ids).height = RequestId.heights ids + 1 := rfl

@[simp] theorem Request.height_id_call (p : RequestProps T)
    (f : TypedFunction typeOf p.impl.valueType) (args : List (Request typeOf)) :
    (Request.call p f args).id.height = RequestId.heights (Request.ids args) + 1 := rfl

end Cradle.Resolve
