import Cradle.Lib.Threads
import Cradle.Lib.Transition
import Mathlib.Algebra.Group.Nat.Defs

/-!
# Root proxy contexts

A `root_proxy_async_context_base` stands for the context tree that the server has made
for an asynchronous resolution.  The thread that resolves the request gets the id of the
tree from the server and fulfils a promise with it; queries on the context wait for the
promise.  When the context is destroyed, it tells the server to remove the tree.

The id that the destructor looks at is copied from the promise by the queries only.

What the server answers is chosen by the run.  `calls` are the calls made to the server;
the program does not keep them.  The cancellation token of the context, which only the
waits between retries look at, is left out.
-/

namespace Cradle.Remote

open Threads

/-- `NO_ASYNC_ID`, where an `async_id` has 64 bits. -/
def noAsyncId : ℕ := 2 ^ 64 - 1

/-- A `std::promise` with its shared state. -/
inductive Promise
  | pending
  | value (id : ℕ)
  | exception
  deriving DecidableEq

/-- The calls to the server. -/
inductive ServerCall
  | getAsyncStatus (id : ℕ)
  | requestCancellation (id : ℕ)
  | getSubContexts (id : ℕ)
  | finishAsync (id : ℕ)
  deriving DecidableEq

def ServerCall.isFinishAsync : ServerCall → Bool
  | .finishAsync _ => true
  | _ => false

/-- `root_proxy_async_context_base`, with the remote ids of its sub-contexts. -/
structure RootProxyContext where
  promise : Promise := .pending
  remoteId : ℕ := noAsyncId
  introspective : Bool := false
  subsMutex : Bool := false
  haveSubs : Bool := false
  subs : List ℕ := []
  calls : List ServerCall := []

/-- What the server answers: it may fail, the status may be such that the sub-contexts are
available, and these have remote ids. -/
structure Answer where
  fails : Bool := false
  available : Bool := true
  subs : List ℕ := []

inductive ProxyInstr
  /-- The check of `wait_on_remote_id`. -/
  | waitOnRemoteId
  /-- The rest of it: get the value of the future, and store it. -/
  | getFuture
  | getAsyncStatus
  | requestCancellation
  /-- `ensure_subs_no_const`, from the lock of the mutex on. -/
  | lockSubs
  | checkSubs
  | waitUntilSubsAvailable
  | getSubContexts
  /-- `get_status_coro` of a sub-context, whose remote id is set when it is made. -/
  | getSubStatus (ix : ℕ)
  deriving DecidableEq

namespace RootProxyContext

/-- Make a call to the server. -/
def call (c : RootProxyContext) (a : ServerCall) : RootProxyContext :=
  { c with calls := c.calls ++ [a] }

def exec (answer : Answer) (c : RootProxyContext) :
    ProxyInstr → Effect RootProxyContext ProxyInstr
  | .waitOnRemoteId => .next c (if c.remoteId = noAsyncId then [.getFuture] else [])
  | .getFuture =>
      match c.promise with
      | .pending => .next c [.getFuture]
      | .value id => .next { c with remoteId := id } []
      | .exception => .throws c
  | .getAsyncStatus =>
      let c := c.call (.getAsyncStatus c.remoteId)
      if answer.fails then .throws c else .next c []
  | .requestCancellation =>
      let c := c.call (.requestCancellation c.remoteId)
      if answer.fails then .throws c else .next c []
  | .lockSubs =>
      if c.subsMutex then .next c [.lockSubs] else .next { c with subsMutex := true } [.checkSubs]
  | .checkSubs =>
      if c.haveSubs then .next { c with subsMutex := false } []
      else .next c [.waitUntilSubsAvailable, .getSubContexts]
  | .waitUntilSubsAvailable =>
      let c := c.call (.getAsyncStatus c.remoteId)
      if answer.fails then .throws { c with subsMutex := false }
      else .next c (if answer.available then [] else [.waitUntilSubsAvailable])
  | .getSubContexts =>
      let c := c.call (.getSubContexts c.remoteId)
      if answer.fails then .throws { c with subsMutex := false }
      else .next { c with subs := answer.subs, haveSubs := true, subsMutex := false } []
  | .getSubStatus ix =>
      match c.subs[ix]? with
      | some id =>
          let c := c.call (.getAsyncStatus id)
          if answer.fails then .throws c else .next c []
      | none => .throws c

/-- `set_value` or `set_exception` on the promise, which throws if it was done before. -/
def fulfil (c : RootProxyContext) (p : Promise) : RootProxyContext :=
  match c.promise with
  | .pending => { c with promise := p }
  | _ => c

/-- `finish_remote`, which the destructor calls. -/
def finishRemote (c : RootProxyContext) : RootProxyContext :=
  if c.remoteId ≠ noAsyncId ∧ ¬ c.introspective then c.call (.finishAsync c.remoteId) else c

end RootProxyContext

/-- The queries on a root proxy context. -/
inductive Query
  | getStatus
  | getNumSubs
  | requestCancellation
  | getSubStatus (ix : ℕ)
  deriving DecidableEq

namespace Query

def code : Query → List ProxyInstr
  | .getStatus => [.waitOnRemoteId, .getAsyncStatus]
  | .getNumSubs => [.waitOnRemoteId, .lockSubs]
  | .requestCancellation => [.waitOnRemoteId, .requestCancellation]
  | .getSubStatus ix => [.getSubStatus ix]

/-- The query goes to the root context, where it waits for the remote id. -/
def waits : Query → Bool
  | .getSubStatus _ => false
  | _ => true

end Query

/-- A root proxy context, and the queries that have been made. -/
structure ProxySystem where
  context : RootProxyContext := {}
  queries : List (Thread Query ProxyInstr) := []
  destroyed : Bool := false

namespace ProxySystem

inductive Action
  | setRemoteId (id : ℕ)
  | failRemoteId
  | query (q : Query)
  /-- A query goes on; the server may be asked for an answer. -/
  | run (n : ℕ) (answer : Answer)
  | destroy

/-- The context is not used any more when it is destroyed, nor after that. -/
def step (s : ProxySystem) (a : Action) : Option ProxySystem :=
  if s.destroyed then none
  else match a with
  | .setRemoteId id => some { s with context := s.context.fulfil (.value id) }
  | .failRemoteId => some { s with context := s.context.fulfil .exception }
  | .query q => some { s with queries := s.queries ++ [{ tag := q, code := q.code }] }
  | .run n answer =>
      (stepPool (RootProxyContext.exec answer) s.context s.queries n).map fun r =>
        { s with context := r.1, queries := r.2 }
  | .destroy =>
      if ∀ t ∈ s.queries, t.code = [] then
        some { s with context := s.context.finishRemote, destroyed := true }
      else none

/-- A new context that is not introspective. -/
def start : Set ProxySystem := { s | s = {} }

/-- The calls of `finish_async` that were made. -/
def finished (s : ProxySystem) : List ServerCall := s.context.calls.filter ServerCall.isFinishAsync

end ProxySystem

/-! ## One step of a query -/

/-- The instruction belongs to `wait_on_remote_id`. -/
def ProxyInstr.waiting : ProxyInstr → Bool
  | .waitOnRemoteId | .getFuture => true
  | _ => false

section
variable {answer : Answer} {c c' : RootProxyContext} {i : ProxyInstr} {pushed : List ProxyInstr}

/-- What every step of a query leaves alone. -/
structure RootProxyContext.Kept (c c' : RootProxyContext) : Prop where
  promise : c'.promise = c.promise
  introspective : c'.introspective = c.introspective
  finished : c'.calls.filter ServerCall.isFinishAsync = c.calls.filter ServerCall.isFinishAsync

theorem RootProxyContext.Kept.refl (c : RootProxyContext) : c.Kept c := ⟨rfl, rfl, rfl⟩

/-- A query does not finish the tree. -/
theorem RootProxyContext.Kept.call {a : ServerCall} (ha : a.isFinishAsync = false)
    (h : c'.promise = c.promise ∧ c'.introspective = c.introspective
      ∧ c'.calls = c.calls ++ [a]) : c.Kept c' :=
  ⟨h.1, h.2.1, by simp [h.2.2, List.filter_append, ha]⟩

/-- A query that goes on: it does something else than to wait, or waits on, or has got the
remote id. -/
theorem proxy_exec_next (h : c.exec answer i = .next c' pushed) :
    c.Kept c' ∧ ((i.waiting = false ∧ c'.remoteId = c.remoteId ∧ ∀ j ∈ pushed, j.waiting = false)
      ∨ (i.waiting = true ∧ c'.remoteId = c.remoteId ∧ pushed = [.getFuture])
      ∨ (i.waiting = true ∧ pushed = [] ∧ ((c'.remoteId = c.remoteId ∧ c.remoteId ≠ noAsyncId)
        ∨ c.promise = .value c'.remoteId))) := by
  cases i with
  | waitOnRemoteId =>
      obtain ⟨rfl, rfl⟩ := Effect.next.inj h
      refine ⟨.refl c, .inr ?_⟩
      by_cases hid : c.remoteId = noAsyncId
      · exact .inl ⟨rfl, rfl, if_pos hid⟩
      · exact .inr ⟨rfl, if_neg hid, .inl ⟨rfl, hid⟩⟩
  | getFuture =>
      cases hp : c.promise with
      | pending =>
          simp only [RootProxyContext.exec, hp] at h
          obtain ⟨rfl, rfl⟩ := Effect.next.inj h
          exact ⟨.refl c, .inr (.inl ⟨rfl, rfl, rfl⟩)⟩
      | value id =>
          simp only [RootProxyContext.exec, hp] at h
          obtain ⟨rfl, rfl⟩ := Effect.next.inj h
          exact ⟨⟨hp.symm, rfl, rfl⟩, .inr (.inr ⟨rfl, rfl, .inr rfl⟩)⟩
      | exception => simp [RootProxyContext.exec, hp] at h
  | lockSubs =>
      simp only [RootProxyContext.exec] at h
      split at h
      all_goals
        obtain ⟨rfl, rfl⟩ := Effect.next.inj h
        exact ⟨⟨rfl, rfl, rfl⟩, .inl ⟨rfl, rfl, by simp [ProxyInstr.waiting]⟩⟩
  | checkSubs =>
      simp only [RootProxyContext.exec] at h
      split at h
      all_goals
        obtain ⟨rfl, rfl⟩ := Effect.next.inj h
        exact ⟨⟨rfl, rfl, rfl⟩, .inl ⟨rfl, rfl, by simp [ProxyInstr.waiting]⟩⟩
  | waitUntilSubsAvailable =>
      simp only [RootProxyContext.exec] at h
      split at h
      · cases h
      · obtain ⟨rfl, rfl⟩ := Effect.next.inj h
        refine ⟨.call rfl ⟨rfl, rfl, rfl⟩, .inl ⟨rfl, rfl, fun j hj => ?_⟩⟩
        split at hj
        · simp at hj
        · rw [List.mem_singleton.mp hj]
          rfl
  | getSubStatus ix =>
      simp only [RootProxyContext.exec] at h
      split at h
      · split at h
        · cases h
        · obtain ⟨rfl, rfl⟩ := Effect.next.inj h
          exact ⟨.call rfl ⟨rfl, rfl, rfl⟩, .inl ⟨rfl, rfl, by simp⟩⟩
      · cases h
  | _ =>
      simp only [RootProxyContext.exec] at h
      split at h
      · cases h
      · obtain ⟨rfl, rfl⟩ := Effect.next.inj h
        exact ⟨.call rfl ⟨rfl, rfl, rfl⟩, .inl ⟨rfl, rfl, by simp⟩⟩

/-- A query that throws; it does so while it waits only if the submission has failed. -/
theorem proxy_exec_throws (h : c.exec answer i = .throws c') :
    c.Kept c' ∧ c'.remoteId = c.remoteId ∧ (i.waiting = true → c.promise = .exception) := by
  cases i with
  | waitOnRemoteId => cases h
  | getFuture =>
      cases hp : c.promise with
      | exception =>
          simp only [RootProxyContext.exec, hp] at h
          obtain rfl := Effect.throws.inj h
          exact ⟨.refl c, rfl, fun _ => rfl⟩
      | _ => simp [RootProxyContext.exec, hp] at h
  | lockSubs =>
      simp only [RootProxyContext.exec] at h
      split at h <;> cases h
  | checkSubs =>
      simp only [RootProxyContext.exec] at h
      split at h <;> cases h
  | getSubStatus ix =>
      simp only [RootProxyContext.exec] at h
      split at h
      · split at h
        · obtain rfl := Effect.throws.inj h
          exact ⟨.call rfl ⟨rfl, rfl, rfl⟩, rfl, by simp [ProxyInstr.waiting]⟩
        · cases h
      · obtain rfl := Effect.throws.inj h
        exact ⟨.refl c, rfl, by simp [ProxyInstr.waiting]⟩
  | _ =>
      simp only [RootProxyContext.exec] at h
      split at h
      · obtain rfl := Effect.throws.inj h
        exact ⟨.call rfl ⟨rfl, rfl, rfl⟩, rfl, by simp [ProxyInstr.waiting]⟩
      · cases h

end

/-! ## The invariant -/

namespace ProxySystem

/-- What holds of a query: it waits at its beginning only, and one on the root that does
not wait any more has got the remote id, or has thrown. -/
structure QueryOk (c : RootProxyContext) (t : Thread Query ProxyInstr) : Prop where
  handler : t.handler = []
  tail : ∀ i ∈ t.code.tail, i.waiting = false
  other : t.tag.waits = false → ∀ i ∈ t.code, i.waiting = false
  root : t.tag.waits = true → (∃ i ∈ t.code, i.waiting = true) ∨ c.promise = .exception
    ∨ c.promise = .value c.remoteId

structure Inv (s : ProxySystem) : Prop where
  introspective : s.context.introspective = false
  remoteId : s.context.remoteId = noAsyncId ∨ s.context.promise = .value s.context.remoteId
  queried : s.context.remoteId ≠ noAsyncId → ∃ t ∈ s.queries, t.tag.waits = true
  queries : ∀ t ∈ s.queries, QueryOk s.context t
  alive : s.destroyed = false → s.finished = []
  destroyed : s.destroyed = true → (∀ t ∈ s.queries, t.code = [])
    ∧ s.finished = if s.context.remoteId = noAsyncId then [] else [.finishAsync s.context.remoteId]

variable {s : ProxySystem}

theorem Inv.fulfil (h : s.Inv) (p : Promise) : Inv { s with context := s.context.fulfil p } := by
  rw [RootProxyContext.fulfil]
  split
  · rename_i hpending
    have hid : s.context.remoteId = noAsyncId := h.remoteId.resolve_right (by simp [hpending])
    refine ⟨h.introspective, .inl hid, h.queried, fun t ht => ?_, h.alive, h.destroyed⟩
    obtain ⟨hhandler, htail, hother, hroot⟩ := h.queries t ht
    refine ⟨hhandler, htail, hother, fun hwaits => .inl ?_⟩
    rcases hroot hwaits with hwaiting | hfailed | hgot
    · exact hwaiting
    · simp [hpending] at hfailed
    · simp [hpending] at hgot
  · exact h

theorem Inv.query (h : s.Inv) (halive : s.destroyed = false) (q : Query) :
    Inv { s with queries := s.queries ++ [{ tag := q, code := q.code }] } := by
  refine ⟨h.introspective, h.remoteId, fun hid => ?_, fun t ht => ?_, h.alive,
    fun hdestroyed => ?_⟩
  · obtain ⟨t, ht, hwaits⟩ := h.queried hid
    exact ⟨t, List.mem_append_left _ ht, hwaits⟩
  · rcases List.mem_append.mp ht with ht | ht
    · exact h.queries t ht
    · obtain rfl := List.mem_singleton.mp ht
      cases q with
      | getSubStatus ix =>
          exact ⟨rfl, by simp [Query.code], by simp [Query.code, ProxyInstr.waiting],
            by simp [Query.waits]⟩
      | _ =>
          exact ⟨rfl, by simp [Query.code, ProxyInstr.waiting], by simp [Query.waits],
            fun _ => .inl ⟨.waitOnRemoteId, by simp [Query.code], rfl⟩⟩
  · simp [halive] at hdestroyed

/-- A step of one query, given the remote id that it leads to. -/
theorem Inv.setQuery (h : s.Inv) (halive : s.destroyed = false) {n : ℕ}
    {t t' : Thread Query ProxyInstr} {c' : RootProxyContext} (hn : s.queries[n]? = some t)
    (hkept : s.context.Kept c')
    (hid : c'.remoteId = s.context.remoteId
      ∨ t.tag.waits = true ∧ s.context.promise = .value c'.remoteId)
    (htag : t'.tag = t.tag) (ht' : QueryOk c' t') :
    Inv { s with context := c', queries := s.queries.set n t' } := by
  have hlt : n < s.queries.length := (List.getElem?_eq_some_iff.mp hn).1
  have hpromise : s.context.promise = .value s.context.remoteId →
      c'.promise = .value c'.remoteId := by
    intro hgot
    rw [hkept.promise]
    rcases hid with heq | ⟨-, hvalue⟩
    · rw [heq]
      exact hgot
    · exact hvalue
  refine ⟨hkept.introspective.trans h.introspective, ?_, fun hne => ?_, ?_, fun _ => ?_,
    fun hdestroyed => ?_⟩
  · rcases hid with heq | ⟨-, hvalue⟩
    · rcases h.remoteId with hno | hgot
      · exact .inl (heq.trans hno)
      · exact .inr (hpromise hgot)
    · exact .inr (hkept.promise.trans hvalue)
  · rcases hid with heq | ⟨hwaits, -⟩
    · refine exists_mem_set (h.queried (by rwa [← heq])) hn fun hwaits => ?_
      rwa [htag]
    · exact ⟨t', List.mem_set hlt t', by rwa [htag]⟩
  · refine forall_mem_set h.queries (fun u hu => ?_) ht'
    exact ⟨hu.handler, hu.tail, hu.other, fun hwaits => (hu.root hwaits).imp_right fun hdone =>
      hdone.imp (fun hfailed => hkept.promise.trans hfailed) hpromise⟩
  · exact hkept.finished.trans (h.alive halive)
  · simp [halive] at hdestroyed

theorem Inv.run (h : s.Inv) (halive : s.destroyed = false) {n : ℕ} {answer : Answer}
    {r : RootProxyContext × List (Thread Query ProxyInstr)}
    (hstep : stepPool (RootProxyContext.exec answer) s.context s.queries n = some r) :
    Inv { s with context := r.1, queries := r.2 } := by
  obtain ⟨c', ts'⟩ := r
  obtain ⟨t, t', hn, hthread, rfl⟩ := stepPool_cases hstep
  obtain ⟨i, rest, hcode, hcases⟩ := stepThread_cases hthread
  obtain ⟨hhandler, htail, hother, hroot⟩ := h.queries t (List.mem_of_getElem? hn)
  rw [hcode] at htail hother hroot
  rw [List.tail_cons] at htail
  have hrest : ∀ j ∈ rest, j.waiting = false := htail
  -- a query that waits is one on the root
  have hwaits : i.waiting = true → t.tag.waits = true := by
    intro hi
    by_contra hnot
    have := hother (Bool.eq_false_of_not_eq_true hnot) i List.mem_cons_self
    simp [hi] at this
  rcases hcases with ⟨pushed, hexec, rfl⟩ | ⟨hexec, rfl⟩
  · obtain ⟨hkept, hdoes⟩ := proxy_exec_next hexec
    rcases hdoes with ⟨hi, hid, hpushed⟩ | ⟨hi, hid, rfl⟩ | ⟨hi, rfl, hgot⟩
    · have hall : ∀ j ∈ pushed ++ rest, j.waiting = false := by
        intro j hj
        rcases List.mem_append.mp hj with hj | hj
        · exact hpushed j hj
        · exact hrest j hj
      refine h.setQuery halive hn hkept (.inl hid) rfl ⟨hhandler,
        fun j hj => hall j (List.mem_of_mem_tail hj), fun _ => hall, fun hw => .inr ?_⟩
      rw [hkept.promise, hid]
      refine (hroot hw).resolve_left fun hwaiting => ?_
      obtain ⟨j, hj, hjw⟩ := hwaiting
      rcases List.mem_cons.mp hj with rfl | hj
      · simp [hi] at hjw
      · simp [hrest j hj] at hjw
    · exact h.setQuery halive hn hkept (.inl hid) rfl ⟨hhandler, hrest,
        fun hnot => by simp [hwaits hi] at hnot, fun _ => .inl ⟨.getFuture, by simp, rfl⟩⟩
    · have hvalue : s.context.promise = .value c'.remoteId := by
        rcases hgot with ⟨heq, hne⟩ | hvalue
        · rw [heq]
          exact h.remoteId.resolve_left hne
        · exact hvalue
      exact h.setQuery halive hn hkept (.inr ⟨hwaits hi, hvalue⟩) rfl ⟨hhandler,
        fun j hj => hrest j (List.mem_of_mem_tail hj), fun _ => hrest,
        fun _ => .inr (.inr (hkept.promise.trans hvalue))⟩
  · obtain ⟨hkept, hid, hfailed⟩ := proxy_exec_throws hexec
    refine h.setQuery halive hn hkept (.inl hid) rfl ⟨rfl, by simp [hhandler],
      by simp [hhandler], fun hw => .inr ?_⟩
    rw [hkept.promise, hid]
    rcases hroot hw with ⟨j, hj, hjw⟩ | hdone
    · rcases List.mem_cons.mp hj with rfl | hj
      · exact .inl (hfailed hjw)
      · simp [hrest j hj] at hjw
    · exact hdone

theorem Inv.destroy (h : s.Inv) (halive : s.destroyed = false)
    (hended : ∀ t ∈ s.queries, t.code = []) :
    Inv { s with context := s.context.finishRemote, destroyed := true } := by
  rw [RootProxyContext.finishRemote]
  by_cases hid : s.context.remoteId = noAsyncId
  · rw [if_neg (by simp [hid])]
    refine ⟨h.introspective, h.remoteId, h.queried, h.queries, by simp, fun _ => ⟨hended, ?_⟩⟩
    rw [if_pos hid]
    exact h.alive halive
  · rw [if_pos ⟨hid, by simp [h.introspective]⟩]
    refine ⟨h.introspective, h.remoteId, h.queried, fun t ht => ?_, by simp,
      fun _ => ⟨hended, ?_⟩⟩
    · obtain ⟨hhandler, htail, hother, hroot⟩ := h.queries t ht
      exact ⟨hhandler, htail, hother, hroot⟩
    · have hnone : s.context.calls.filter ServerCall.isFinishAsync = [] := h.alive halive
      simp [ProxySystem.finished, RootProxyContext.call, List.filter_append, hnone, hid,
        ServerCall.isFinishAsync]

theorem Inv.step {s' : ProxySystem} {a : Action} (h : s.Inv) (hstep : s.step a = some s') :
    s'.Inv := by
  unfold ProxySystem.step at hstep
  split at hstep
  · cases hstep
  · rename_i halive
    have halive : s.destroyed = false := Bool.eq_false_of_not_eq_true halive
    cases a with
    | setRemoteId id =>
        obtain rfl := Option.some.inj hstep
        exact h.fulfil (.value id)
    | failRemoteId =>
        obtain rfl := Option.some.inj hstep
        exact h.fulfil .exception
    | query q =>
        obtain rfl := Option.some.inj hstep
        exact h.query halive q
    | run n answer =>
        obtain ⟨r, hpool, rfl⟩ := Option.map_eq_some_iff.mp hstep
        exact h.run halive hpool
    | destroy =>
        simp only at hstep
        split at hstep
        · obtain rfl := Option.some.inj hstep
          exact h.destroy halive ‹_›
        · cases hstep

/-! ## Every run -/

/-- Once the server has returned an id and the context is destroyed, the server was told
exactly once to finish the tree with that id if and only if a query had been made on the
root context (and the id is a valid one). -/
theorem finished_iff_queried {id : ℕ}
    (hreach : Transition.Reachable step (fun _ _ => True) start s)
    (hid : s.context.promise = .value id) (hdestroyed : s.destroyed = true) :
    s.finished = [.finishAsync id] ↔ (∃ t ∈ s.queries, t.tag.waits = true) ∧ id ≠ noAsyncId := by
  have h : s.Inv := by
    refine hreach.invariant (fun s hs => ?_) fun s s' a hI _ hstep => hI.step hstep
    obtain rfl : s = {} := hs
    exact ⟨rfl, .inl rfl, by simp, by simp, fun _ => rfl, by simp⟩
  obtain ⟨hended, hfinished⟩ := h.destroyed hdestroyed
  rw [hfinished]
  constructor
  · intro heq
    by_cases hno : s.context.remoteId = noAsyncId
    · simp [hno] at heq
    · rw [if_neg hno] at heq
      have : s.context.remoteId = id := by simpa using heq
      exact ⟨h.queried hno, by rwa [← this]⟩
  · rintro ⟨⟨t, ht, hwaits⟩, hne⟩
    -- the query has ended, so it has got the remote id
    have hgot : s.context.promise = .value s.context.remoteId := by
      rcases (h.queries t ht).root hwaits with ⟨i, hi, -⟩ | hfailed | hgot
      · simp [hended t ht] at hi
      · simp [hid] at hfailed
      · exact hgot
    have heq : id = s.context.remoteId := by simpa [hid] using hgot
    rw [← heq, if_neg hne]

/-- The status is queried before the server has returned the id. -/
def queriedRun : List Action :=
  [.query .getStatus, .run 0 {}, .run 0 {}, .setRemoteId 7, .run 0 {}, .run 0 {}, .destroy]

theorem finished_queriedRun : ∃ s, Transition.run step {} queriedRun = some s
    ∧ (s.finished = [.finishAsync 7] ↔ (∃ t ∈ s.queries, t.tag.waits = true) ∧ 7 ≠ noAsyncId)
    ∧ s.finished = [.finishAsync 7] := by
  obtain ⟨s, hrun⟩ : ∃ s, Transition.run step {} queriedRun = some s :=
    Option.isSome_iff_exists.mp (by decide)
  have hend : (Transition.run step {} queriedRun).map (fun s => (s.context.promise, s.destroyed,
      s.finished)) = some (.value 7, true, [.finishAsync 7]) := by
    decide
  rw [hrun] at hend
  obtain ⟨hid, hdestroyed, hfinished⟩ :
      s.context.promise = .value 7 ∧ s.destroyed = true ∧ s.finished = [.finishAsync 7] := by
    simpa using hend
  have hstart : {} ∈ start := rfl
  have hreach := Transition.Reachable.run (.start hstart) hrun
  exact ⟨s, hrun, finished_iff_queried hreach hid hdestroyed, hfinished⟩

/-- The request is resolved without any query. -/
def unqueriedRun : List Action := [.setRemoteId 7, .destroy]

/-- The tree stays on the server. -/
theorem not_finished_unqueriedRun :
    ¬ ∀ s, Transition.Reachable step (fun _ _ => True) start s → ∀ id,
      s.context.promise = .value id → s.destroyed = true → s.finished = [.finishAsync id] := by
  intro h
  obtain ⟨s, hrun⟩ : ∃ s, Transition.run step {} unqueriedRun = some s :=
    Option.isSome_iff_exists.mp (by decide)
  have hend : (Transition.run step {} unqueriedRun).map (fun s => (s.context.promise, s.destroyed,
      s.finished)) = some (.value 7, true, []) := by
    decide
  rw [hrun] at hend
  obtain ⟨hid, hdestroyed, hfinished⟩ :
      s.context.promise = .value 7 ∧ s.destroyed = true ∧ s.finished = [] := by
    simpa using hend
  have hstart : {} ∈ start := rfl
  have hreach := Transition.Reachable.run (.start hstart) hrun
  have hcall := h s hreach 7 hid hdestroyed
  simp [hfinished] at hcall

end ProxySystem
end Cradle.Remote
