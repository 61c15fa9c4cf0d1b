import Cradle.Caching.Memo
import Cradle.Resolve.Meaning
import Cradle.Resolve.Resolver

/-!
# Caching is transparent

Resolving a request through the caches gives what its uncached evaluation gives.  The
invariant `Sound` says that the memory cache memoizes `evalId` and that each entry of
the secondary cache is the serialized value of some key.  While a request is resolved,
the records of its callers are loading; their keys are higher trees than its own key
(and than that of its clone), so it never waits for one of them.
-/

namespace Cradle.Resolve

open Caching Coro

variable {T V D H B : Type} [DecidableEq T] [DecidableEq V] [DecidableEq D] [DecidableEq H]
  {typeOf : V → T} {res : Resources typeOf D H B} {meaning : List Char → List V → Except Exn V}

/-! ## Direct resolution -/

section Direct
variable {I : World T V D H B → Prop}

theorem yields_resolveArgs (order : ArgOrder) {rs : List (Request typeOf)}
    (h : ∀ r ∈ rs, Yields I (resolveRequest res r) r.eval) :
    Yields I (resolveArgs res order rs) (Request.evalAll rs) := by
  induction rs with
  | nil =>
      rw [resolveArgs, Request.evalAll]
      exact .pure []
  | cons r rs ih =>
      have hr := h r (by simp)
      have hrs := ih fun r' hr' => h r' (by simp [hr'])
      rw [Request.evalAll]
      cases order with
      | leftToRight =>
          rw [resolveArgs]
          refine hr.bind fun v _ => ?_
          rw [Option.map_eq_bind]
          exact hrs.bind fun vs _ => .pure _
      | rightToLeft =>
          have hcomm : (r.eval.bind fun v => (Request.evalAll rs).map (v :: ·))
              = (Request.evalAll rs).bind fun vs => r.eval.bind fun v => some (v :: vs) := by
            cases r.eval <;> cases Request.evalAll rs <;> rfl
          rw [hcomm, resolveArgs]
          exact hrs.bind fun vs _ => hr.bind fun v _ => .pure _
      | whenAll =>
          have hpair : (r.eval.bind fun v => (Request.evalAll rs).map (v :: ·))
              = (r.eval.bind fun v => (Request.evalAll rs).map (v, ·)).bind
                fun x => some (x.1 :: x.2) := by
            cases r.eval <;> cases Request.evalAll rs <;> rfl
          rw [hpair, resolveArgs]
          exact (hr.whenBoth hrs).bind fun x _ => .pure _

omit [DecidableEq V] [DecidableEq D] [DecidableEq H] in
theorem yields_resolveRequestDirect {p : RequestProps T}
    {f : TypedFunction typeOf p.impl.valueType} {ids : List (RequestId T V)}
    {args : ArgOrder → Resolution T V D H B (List V)} {o : Option (List V)}
    (hargs : ∀ order, Yields I (args order) o) :
    Yields I (resolveRequestDirect res p f ids args)
      ((normalized typeOf p.impl p.uuid.str ids).or (o.bind fun vs => (f.run vs).toOption)) := by
  rw [resolveRequestDirect]
  cases normalized typeOf p.impl p.uuid.str ids with
  | some v => exact .pure v
  | none =>
      rw [Option.none_or]
      exact (hargs _).bind fun vs _ => .ofExcept _

/-- `eval` is what the resolver computes without caching, whatever is in the caches. -/
theorem yields_resolveRequest_uncached (hres : res.supportCaching = false) (r : Request typeOf) :
    Yields I (resolveRequest res r) r.eval := by
  induction r using Request.induction with
  | value v =>
      rw [resolveRequest, Request.eval]
      exact .pure v
  | call p f args ih =>
      rw [resolveRequest, Request.eval, resolveImpl, if_pos (by simp [hres])]
      exact (yields_resolveRequestDirect fun order => yields_resolveArgs order ih).retry _ _

end Direct

/-! ## The invariant -/

/-- What is assumed of the hashes, the serialization and the digests. -/
structure Resources.Lawful (res : Resources typeOf D H B) : Prop where
  getUniqueString_inj : Function.Injective res.getUniqueString
  digestOf_inj : Function.Injective res.digestOf
  roundTrip : ∀ v,
    res.deserializeValue (typeOf v) (res.serializeValue v res.allowBlobFiles) = .ok v

/-- Both caches hold values of `evalId` only. -/
structure Sound (res : Resources typeOf D H B) (meaning : List Char → List V → Except Exn V)
    (held loading : List (RequestId T V)) (w : World T V D H B) : Prop where
  memo : Memo res.digestOf (evalId typeOf meaning) held loading w.cache
  entries : ∀ h b, w.secondary.entries h = some b → ∃ key v, h = res.getUniqueString key
    ∧ evalId typeOf meaning key = some v ∧ b = res.serializeValue v res.allowBlobFiles

omit [DecidableEq H] in
theorem sound_init (limit : ℕ) : Sound res meaning [] [] (World.init limit) where
  memo := .init limit
  entries h b hb := by simp [World.init] at hb

section Cached
variable {key : RequestId T V} {held loading : List (RequestId T V)} {w : World T V D H B}
  {direct : Resolution T V D H B V} {impl : ImplType T}

theorem yields_write {v : V} (hv : evalId typeOf meaning key = some v) :
    Yields (Sound res meaning held loading)
      (SecondaryCache.write (res.getUniqueString key) (res.serializeValue v res.allowBlobFiles))
      (some ()) := by
  intro w hw
  refine ⟨rfl, hw.memo, fun h b hb => ?_⟩
  simp only [SecondaryCache.write] at hb
  by_cases hkey : h = res.getUniqueString key
  · rw [hkey, Function.update_self, Option.some.injEq] at hb
    exact ⟨key, v, hkey, hv, hb.symm⟩
  · rw [Function.update_of_ne hkey] at hb
    exact hw.entries h b hb

theorem yields_secondaryCachedBlob (hres : res.Lawful) {createTask : Resolution T V D H B B}
    (hcreate : Yields (Sound res meaning held loading) createTask
      ((evalId typeOf meaning key).map (res.serializeValue · res.allowBlobFiles))) :
    Yields (Sound res meaning held loading) (secondaryCachedBlob res key createTask)
      ((evalId typeOf meaning key).map (res.serializeValue · res.allowBlobFiles)) := by
  intro w hw
  have hread : Sound res meaning held loading
      { w with secondary := { w.secondary with reads := w.secondary.reads + 1 } } :=
    ⟨hw.memo, hw.entries⟩
  have hrun : SecondaryCache.read res (res.getUniqueString key) w
      = (.value (if res.readable w.secondary.reads
          then w.secondary.entries (res.getUniqueString key) else none),
        { w with secondary := { w.secondary with reads := w.secondary.reads + 1 } }) := rfl
  rw [secondaryCachedBlob]
  rw [bind_of_value hrun]
  cases hfound : if res.readable w.secondary.reads
      then w.secondary.entries (res.getUniqueString key) else none with
  | some blob =>
      have hentry : w.secondary.entries (res.getUniqueString key) = some blob := by
        split at hfound
        · exact hfound
        · simp at hfound
      obtain ⟨key', v, hkey, hv, rfl⟩ := hw.entries _ blob hentry
      obtain rfl := hres.getUniqueString_inj hkey
      exact ⟨by rw [hv]; rfl, hread⟩
  | none =>
      rw [← Option.bind_fun_some (Option.map _ _)]
      refine hcreate.bind (fun blob hblob => ?_) _ hread
      obtain ⟨v, hv, rfl⟩ := Option.map_eq_some_iff.mp hblob
      exact (yields_write hv).bind fun _ _ => .pure _

theorem yields_resolveSecondaryCached (hres : res.Lawful)
    (htyped : ∀ v, evalId typeOf meaning key = some v → typeOf v = impl.valueType)
    (hdirect : Yields (Sound res meaning held loading) direct (evalId typeOf meaning key)) :
    Yields (Sound res meaning held loading) (resolveSecondaryCached res impl key direct)
      (evalId typeOf meaning key) := by
  rw [resolveSecondaryCached]
  split
  · exact hdirect
  · have hcreate : Yields (Sound res meaning held loading)
        (do return res.serializeValue (← direct) res.allowBlobFiles)
        ((evalId typeOf meaning key).map (res.serializeValue · res.allowBlobFiles)) := by
      rw [Option.map_eq_bind]
      exact hdirect.bind fun v _ => .pure _
    have hvalue : (evalId typeOf meaning key) = ((evalId typeOf meaning key).map
        (res.serializeValue · res.allowBlobFiles)).bind
          fun blob => (res.deserializeValue impl.valueType blob).toOption := by
      cases hv : evalId typeOf meaning key with
      | none => rfl
      | some v =>
          rw [Option.map_some, Option.bind_some, ← htyped v hv, hres.roundTrip]
          rfl
    rw [hvalue]
    exact (yields_secondaryCachedBlob hres hcreate).bind fun blob _ => .ofExcept _

/-- After a miss the record is ready, unless the request has no value. -/
theorem resolveRequestOnMemoryCacheMiss_spec (hres : res.Lawful) (hkey : key ∉ loading)
    (htyped : ∀ v, evalId typeOf meaning key = some v → typeOf v = impl.valueType)
    (hdirect : Yields (Sound res meaning held (key :: loading)) direct (evalId typeOf meaning key))
    (hw : Sound res meaning held (key :: loading) w) :
    ∃ w', Sound res meaning held loading w'
      ∧ ((resolveRequestOnMemoryCacheMiss res impl key direct w = (.value (), w')
          ∧ w'.cache.stateOf key = some .ready)
        ∨ ∃ e, resolveRequestOnMemoryCacheMiss res impl key direct w = (.exception e, w')
          ∧ evalId typeOf meaning key = none) := by
  rw [resolveRequestOnMemoryCacheMiss]
  obtain ⟨w', hw', ⟨v, hrun, hv⟩ | ⟨e, hrun, hv⟩⟩ :=
    (yields_resolveSecondaryCached hres htyped hdirect).run hw
  · obtain ⟨hmemo, hready⟩ := hw'.memo.recordValue hkey hv (res.deepSizeof v)
    exact ⟨(recordValue res key v w').2, ⟨hmemo, hw'.entries⟩, .inl
      ⟨onException_of_value (bind_of_value hrun _), hready⟩⟩
  · exact ⟨recordFailure key w', ⟨hw'.memo.recordFailure hkey, hw'.entries⟩, .inr
      ⟨e, onException_of_exception (bind_of_exception hrun _), hv⟩⟩

omit [DecidableEq H] in
theorem getValue_spec (hres : res.Lawful)
    (htyped : ∀ v, evalId typeOf meaning key = some v → typeOf v = impl.valueType)
    (hw : Sound res meaning held loading w) (hready : w.cache.stateOf key = some .ready) :
    ∃ v, getValue typeOf impl.valueType key w = (.value v, w)
      ∧ evalId typeOf meaning key = some v := by
  obtain ⟨v, hget, hv⟩ := hw.memo.getValue hres.digestOf_inj hready
  exact ⟨v, by simp [getValue, hget, htyped v hv], hv⟩

omit [DecidableEq H] in
theorem sound_releasePtr (hkey : key ∉ loading) (hw : Sound res meaning (key :: held) loading w) :
    Sound res meaning held loading (releasePtr key w) :=
  ⟨hw.memo.release hkey, hw.entries⟩

/-- A request whose key is not being loaded is resolved to the value of its key. -/
theorem yields_resolveRequestCached (hres : res.Lawful) (hkey : key ∉ loading)
    (htyped : ∀ v, evalId typeOf meaning key = some v → typeOf v = impl.valueType)
    (hdirect : Yields (Sound res meaning (key :: held) (key :: loading)) direct
      (evalId typeOf meaning key)) :
    Yields (Sound res meaning held loading) (resolveRequestCached res impl key direct)
      (evalId typeOf meaning key) := by
  intro w hw
  have hrun : acquirePtr key w = (.value (w.cache.createsTask key),
      { w with cache := w.cache.acquireCacheRecord key }) := rfl
  rw [resolveRequestCached]
  rw [bind_of_value hrun]
  by_cases hready : w.cache.stateOf key = some .ready
  · -- a hit: the task of the record has run
    have hcreates : w.cache.createsTask key = false := by
      rw [← Bool.not_eq_true, ImmutableCache.createsTask_iff]
      simp [hready]
    have hacq : Sound res meaning (key :: held) loading
        { w with cache := w.cache.acquireCacheRecord key } :=
      ⟨hw.memo.acquire_ready hready, hw.entries⟩
    have hready' : (w.cache.acquireCacheRecord key).stateOf key = some .ready := by
      simp [ImmutableCache.stateOf_acquire, hready]
    obtain ⟨v, hget, hv⟩ := getValue_spec hres htyped hacq hready'
    have hawait : ensureValueTask res (w.cache.createsTask key) impl key direct
        { w with cache := w.cache.acquireCacheRecord key }
          = (.value (), { w with cache := w.cache.acquireCacheRecord key }) := by
      simp [ensureValueTask, hcreates, awaitTask, hready']
    rw [ensuring_of_value ((bind_of_value hawait _).trans hget)]
    exact ⟨hv, sound_releasePtr hkey hacq⟩
  · -- a miss, or a failed record: the request is resolved here
    have hcreates : w.cache.createsTask key = true := by
      rw [ImmutableCache.createsTask_iff]
      exact ⟨hready, fun hload => hkey ((hw.memo.loading_iff key).mp hload)⟩
    have hacq : Sound res meaning (key :: held) (key :: loading)
        { w with cache := w.cache.acquireCacheRecord key } :=
      ⟨hw.memo.acquire_new hready, hw.entries⟩
    have htask : ensureValueTask res (w.cache.createsTask key) impl key direct
        = resolveRequestOnMemoryCacheMiss res impl key direct := by
      rw [ensureValueTask, if_pos hcreates]
    rw [htask]
    obtain ⟨w', hw', ⟨hrun, hready'⟩ | ⟨e, hrun, hv⟩⟩ :=
      resolveRequestOnMemoryCacheMiss_spec hres hkey htyped hdirect hacq
    · obtain ⟨v, hget, hv⟩ := getValue_spec hres htyped hw' hready'
      rw [ensuring_of_value ((bind_of_value hrun _).trans hget)]
      exact ⟨hv, sound_releasePtr hkey hw'⟩
    · rw [ensuring_of_exception (bind_of_exception hrun _)]
      exact ⟨hv, sound_releasePtr hkey hw'⟩

end Cached

/-! ## Request trees -/

omit [DecidableEq T] [DecidableEq V] in
theorem not_mem_of_height_lt {keys : List (RequestId T V)} {key : RequestId T V}
    (h : ∀ k ∈ keys, key.height < k.height) : key ∉ keys :=
  fun hmem => (h key hmem).false

/-- A clone is resolved to the value of the call, while the requests above are loading. -/
theorem yields_resolveRequestFlattened (hres : res.Lawful) {p : RequestProps T}
    {f : TypedFunction typeOf p.impl.valueType}
    {args : ArgOrder → Resolution T V D H B (List V)} {o : Option (List V)}
    (huuid : p.uuid.makeCloneUuid = .ok p.uuid.flatClone)
    (hf : f.run = meaning p.uuid.flatClone.str)
    (hvalue : ∀ vs, evalId typeOf meaning
      ((p.flattened p.uuid.flatClone).capturedId (vs.map .value)) = (f.run vs).toOption)
    {keys : List (RequestId T V)} (hkeys : ∀ k ∈ keys, 1 < k.height)
    (hargs : Yields (Sound res meaning keys keys) (args .whenAll) o) :
    Yields (Sound res meaning keys keys) (resolveRequestFlattened res p f args)
      (o.bind fun vs => (f.run vs).toOption) := by
  rw [resolveRequestFlattened]
  rw [huuid]
  refine hargs.bind fun vs _ => (Yields.ofExcept (.ok p.uuid.flatClone)).bind
    (g := fun _ => (f.run vs).toOption) fun uuid huuid' => ?_
  obtain rfl : p.uuid.flatClone = uuid := Option.some.inj huuid'
  rw [← hvalue vs]
  refine yields_resolveRequestCached hres (not_mem_of_height_lt fun k hk => ?_)
    (fun v hv => f.typeOf_of_run (by rw [← hvalue vs, hv])) ?_
  · rw [RequestProps.height_capturedId, RequestId.heights_values]
    exact hkeys k hk
  · have hf' : meaning (p.flattened p.uuid.flatClone).uuid.str = f.run := hf.symm
    rw [RequestProps.capturedId, evalId, evalIds_values, hf']
    exact yields_resolveRequestDirect (p := p.flattened p.uuid.flatClone) fun _ => .pure vs

/-- A request is resolved to its uncached value, while the requests above it are
loading. -/
theorem yields_resolveRequest (hres : res.Lawful) {r : Request typeOf}
    (hcons : r.Consistent meaning) (hclon : r.Clonable) {keys : List (RequestId T V)}
    (hkeys : ∀ k ∈ keys, r.id.height < k.height) :
    Yields (Sound res meaning keys keys) (resolveRequest res r) r.eval := by
  induction r using Request.induction generalizing keys with
  | value v =>
      rw [resolveRequest, Request.eval]
      exact .pure v
  | call p f args ih =>
      have heval := Request.eval_eq_evalId _ hcons
      have hclone := clone_spec hcons hclon
      obtain _ | ⟨⟨hf, -⟩, hcons⟩ := hcons
      obtain _ | ⟨-, hclon⟩ := hclon
      have hargs : ∀ {keys : List (RequestId T V)},
          (∀ k ∈ keys, RequestId.heights (Request.ids args) < k.height) → ∀ order,
          Yields (Sound res meaning keys keys) (resolveArgs res order args)
            (Request.evalAll args) := by
        intro keys hkeys order
        refine yields_resolveArgs order fun a ha => ih a ha (hcons a ha) (hclon a ha) fun k hk => ?_
        exact (height_le_heights ha).trans_lt (hkeys k hk)
      rw [Request.height_id_call] at hkeys
      have hkeys' : ∀ k ∈ keys, RequestId.heights (Request.ids args) < k.height :=
        fun k hk => (Nat.lt_succ_self _).trans (hkeys k hk)
      rw [resolveRequest]
      refine Yields.retry ?_ _ _
      rw [resolveImpl]
      split
      · exact yields_resolveRequestDirect (hargs hkeys')
      · split
        · next hvb =>
            obtain ⟨huuid, hmeaning, hvalue, hkey⟩ := hclone hvb
            rw [hvalue]
            refine yields_resolveRequestFlattened hres huuid hmeaning hkey (fun k hk => ?_)
              (hargs hkeys' _)
            have := hkeys k hk
            omega
        · have hkey : evalId typeOf meaning (p.capturedId (Request.ids args))
              = (Request.call p f args).eval := (evalId_capturedId p f args).trans heval.symm
          rw [← hkey]
          refine yields_resolveRequestCached hres (not_mem_of_height_lt hkeys)
            (fun v hv => Request.typeOf_eval (hkey ▸ hv)) ?_
          rw [hkey, Request.eval]
          refine yields_resolveRequestDirect (hargs fun k hk => ?_)
          rcases List.mem_cons.mp hk with rfl | hk
          · exact Nat.lt_succ_self _
          · exact hkeys' k hk

/-! ## Sessions -/

theorem runSession_spec (hres : res.Lawful) {cs : List (Command typeOf H)}
    (hcons : ∀ r ∈ requests cs, r.Consistent meaning) (hclon : ∀ r ∈ requests cs, r.Clonable)
    {w : World T V D H B} (hw : Sound res meaning [] [] w) :
    List.Forall₂ Outcome.Is (runSession res cs w) ((requests cs).map Request.eval) := by
  induction cs generalizing w with
  | nil => exact .nil
  | cons c cs ih =>
      cases c with
      | resolve r =>
          obtain ⟨hr, hw'⟩ := yields_resolveRequest hres (hcons r (by simp [requests]))
            (hclon r (by simp [requests])) (by simp) w hw
          exact .cons hr (ih (fun r' hr' => hcons r' (by simp [requests, hr']))
            (fun r' hr' => hclon r' (by simp [requests, hr'])) hw')
      | reduceMemoryCacheSize n => exact ih hcons hclon ⟨hw.memo.reduce n, hw.entries⟩
      | clearUnusedEntries => exact ih hcons hclon ⟨hw.memo.reduce 0, hw.entries⟩
      | evictSecondary keep =>
          refine ih hcons hclon ⟨hw.memo, fun h b hb => hw.entries h b ?_⟩
          dsimp only at hb
          split at hb
          · exact hb
          · simp at hb

def numberType : ℕ → Unit := fun _ => ()

def sumArgs : TypedFunction numberType () where
  run vs := if vs = [] then .error .httpRequestFailure else .ok (vs.foldl (· + ·) 0)
  typed _ _ _ := rfl

/-- Every second read of the secondary cache finds nothing. -/
def numberResources : Resources numberType ℕ (RequestId Unit ℕ) ℕ where
  supportCaching := true
  callOrder := .rightToLeft
  digestOf := id
  deepSizeof _ := 8
  getUniqueString := id
  allowBlobFiles := false
  serializeValue v _ := v
  deserializeValue _ b := .ok b
  readable n := n % 2 = 0

theorem lawful_numberResources : numberResources.Lawful :=
  ⟨Function.injective_id, Function.injective_id, fun _ => rfl⟩

/-- A request for the sum of the arguments. -/
def sumOf (level : CachingLevel) (args : List (Request numberType))
    (maxAttempts : Option ℤ := none) : Request numberType :=
  .call
    { impl := { valueType := (), level }
      uuid := { base := "sum".toList, level := some level }
      maxAttempts }
    sumArgs args

theorem sumOf_spec {level : CachingLevel} {args : List (Request numberType)}
    {maxAttempts : Option ℤ}
    (h : ∀ a ∈ args, a.Consistent (fun _ => sumArgs.run) ∧ a.Clonable) :
    (sumOf level args maxAttempts).Consistent (fun _ => sumArgs.run)
      ∧ (sumOf level args maxAttempts).Clonable := by
  refine ⟨.call ⟨rfl, fun _ _ _ => rfl⟩ fun a ha => (h a ha).1,
    .call (fun _ => ⟨rfl, ?_, fun hcoro => nomatch hcoro⟩) fun a ha => (h a ha).2⟩
  exact (by decide : RequestUuid.makeBaseString "sum".toList ≠ [])

/-- It occurs twice in the session, with one key. -/
def five : Request numberType := sumOf .memory [.value 2, .value 3]

/-- A fully cached request over a value-based and an uncached one. -/
def sixteen : Request numberType :=
  sumOf .full [sumOf .fullVb [.value 1, five], sumOf .none [five, five]]

/-- The second argument throws, each of the three times that it is tried. -/
def failing : Request numberType := sumOf .memoryVb [five, sumOf .full [] (some 3)]

def numberSession : List (Command numberType (RequestId Unit ℕ)) :=
  [.resolve sixteen, .resolve failing, .clearUnusedEntries, .resolve sixteen,
    .evictSecondary fun _ => false, .reduceMemoryCacheSize 8, .resolve failing, .resolve sixteen]

theorem numberSession_spec : ∀ r ∈ requests numberSession,
    r.Consistent (fun _ => sumArgs.run) ∧ r.Clonable := by
  have hvalue : ∀ v, (Request.value v : Request numberType).Consistent (fun _ => sumArgs.run)
      ∧ (Request.value v : Request numberType).Clonable := fun v => ⟨.value v, .value v⟩
  have hfive : five.Consistent (fun _ => sumArgs.run) ∧ five.Clonable :=
    sumOf_spec (by simp [hvalue])
  have hone : (sumOf .fullVb [.value 1, five]).Consistent (fun _ => sumArgs.run)
      ∧ (sumOf .fullVb [.value 1, five]).Clonable := sumOf_spec (by simp [hvalue, hfive])
  have hten : (sumOf .none [five, five]).Consistent (fun _ => sumArgs.run)
      ∧ (sumOf .none [five, five]).Clonable := sumOf_spec (by simp [hfive])
  have hzero : (sumOf .full [] (some 3)).Consistent (fun _ => sumArgs.run)
      ∧ (sumOf .full [] (some 3)).Clonable := sumOf_spec (by simp)
  have hsixteen : sixteen.Consistent (fun _ => sumArgs.run) ∧ sixteen.Clonable :=
    sumOf_spec (by simp [hone, hten])
  have hfailing : failing.Consistent (fun _ => sumArgs.run) ∧ failing.Clonable :=
    sumOf_spec (by simp [hfive, hzero])
  simp [requests, numberSession, hsixteen, hfailing]

/-- A value-based request. -/
def valueBased (functionType : FunctionType) (uuid : RequestUuid)
    (function : TypedFunction numberType ()) (args : List (Request numberType)) :
    Request numberType :=
  .call { impl := { valueType := (), level := .memoryVb, functionType }, uuid } function args

theorem consistent_valueBased {functionType : FunctionType} {uuid : RequestUuid}
    {function : TypedFunction numberType ()} {args : List (Request numberType)}
    (h : ∀ a ∈ args, a.Consistent fun _ => function.run) :
    (valueBased functionType uuid function args).Consistent fun _ => function.run :=
  .call ⟨rfl, fun _ _ _ => rfl⟩ h

/-- Its uuid is flattened already. -/
def flattenedRequest : Request numberType :=
  valueBased .plain { base := "sum".toList, flattened := true } sumArgs [.value 2, .value 3]

/-- Its uuid has nothing but an extension. -/
def baselessRequest : Request numberType :=
  valueBased .plain (.ofComplete "+mem_vb".toList) sumArgs [.value 2, .value 3]

def successor : TypedFunction numberType () where
  run vs := .ok (vs.foldl (· + ·) 1)
  typed _ _ _ := rfl

/-- It is named like a normalizer, and takes the successor of a request. -/
def misnamedRequest : Request numberType :=
  valueBased .coro { base := "normalization<int,coro>".toList } successor
    [.call { impl := { valueType := (), level := .none }, uuid := { base := "succ".toList } }
      successor [.value 2]]

end Cradle.Resolve
