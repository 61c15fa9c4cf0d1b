import Cradle.Resolve.ContextPositions

/-!
# The statuses of a context tree

`update_status` on a context that gets almost finished first updates the contexts below it,
which have not run if the result came from a cache.  It leaves them alone if the context was
almost finished before: their statuses are FINISHED then, or so a comment says.  That is an
invariant of the whole tree, which also holds between the stores that one call makes, and
through the two updates that the root's `update_status` makes.

A call is broken up into its stores.  No other call starts before they are made.
-/

namespace Cradle.Async

open Resolve
open Remote (AsyncStatus)

/-! ## The stores of a call -/

/-- An assignment to a member of a context. -/
inductive Store
  | status (c : Position) (st : AsyncStatus)
  | errmsg (c : Position) (msg : String)
  | result (result : Blob)

namespace ContextTree

mutual
/-- What `local_async_context_base::update_status` stores, in this order. -/
def updateStores (st : AsyncStatus) :
    ContextTree → Position → (Position → AsyncStatus) → List Store
  | .node _ subs, c, status =>
      (if ¬ (status c).almostFinished ∧ st.almostFinished then finishStores subs c 0 status
        else []) ++ [.status c st]
/-- The stores to the contexts below. -/
def finishStores : List ContextTree → Position → ℕ → (Position → AsyncStatus) → List Store
  | [], _, _, _ => []
  | sub :: subs, c, i, status =>
      updateStores .finished sub (c ++ [i]) status
        ++ finishStores subs c (i + 1) (updateStatus .finished sub (c ++ [i]) status)
end

end ContextTree

def Store.apply (status : Position → AsyncStatus) : Store → Position → AsyncStatus
  | .status c st => Function.update status c st
  | .errmsg _ _ | .result _ => status

mutual
/-- One after the other, the stores do what `update_status` does. -/
theorem ContextTree.foldl_updateStores (st : AsyncStatus) : ∀ (tree : ContextTree) (c : Position)
    (status : Position → AsyncStatus),
    (tree.updateStores st c status).foldl Store.apply status = tree.updateStatus st c status
  | .node _ subs, c, status => by
      rw [updateStores, updateStatus, List.foldl_append]
      split
      · rw [foldl_finishStores subs c 0 status]
        rfl
      · rfl
theorem ContextTree.foldl_finishStores : ∀ (subs : List ContextTree) (c : Position) (i : ℕ)
    (status : Position → AsyncStatus),
    (finishStores subs c i status).foldl Store.apply status = finishSubs subs c i status
  | [], _, _, _ => rfl
  | sub :: subs, c, i, status => by
      rw [finishStores, finishSubs, List.foldl_append,
        foldl_updateStores .finished sub (c ++ [i]) status]
      exact foldl_finishStores subs c (i + 1) _
end

/-! ## Trees and calls -/

/-- The local contexts of a resolution: those for plain values have none below them. -/
structure LocalContexts where
  root : ContextTree
  values : ∀ p t, Positions.sub ContextTree.subs root p = some t → t.isReq = false → t.subs = []

/-- The contexts for a request. -/
def LocalContexts.ofRequest {T F V : Type} (r : FunctionRequest T F V) : LocalContexts where
  root := contextTree r
  values p t ht hreq := by
    rw [sub_contextTree] at ht
    obtain ⟨a, -, rfl⟩ := Option.map_eq_some_iff.mp ht
    cases a with
    | value type v => rfl
    | call props f c as => simp [contextTree, ContextTree.isReq] at hreq

namespace LocalContexts

/-- The context at a position. -/
def context (tree : LocalContexts) (c : Position) : Option ContextTree :=
  Positions.sub ContextTree.subs tree.root c

/-- The statuses at construction. -/
def initialStatus (tree : LocalContexts) (c : Position) : AsyncStatus :=
  ((tree.context c).map ContextTree.status).getD .created

end LocalContexts

/-- What is called on the contexts. -/
inductive StatusCall
  | updateStatus (c : Position) (st : AsyncStatus)
  | updateStatusError (c : Position) (errmsg : String)
  /-- On the root. -/
  | usingResult
  /-- On the root. -/
  | setResult (result : Blob)

/-- The members of the contexts, and the stores that are left of the call under way. -/
structure StatusTree (tree : LocalContexts) where
  status : Position → AsyncStatus := tree.initialStatus
  errmsg : Position → String := fun _ => ""
  usingResult : Bool := false
  result : Blob := Remote.nullBlob
  pending : List Store := []

/-- A call starts, or the call under way makes its next store. -/
inductive StatusEvent
  | call (call : StatusCall)
  | store

namespace StatusTree

variable {tree : LocalContexts}

/-- No context above is almost finished. -/
def AncestorsRun (s : StatusTree tree) (c : Position) : Prop :=
  ∀ n < c.length, (s.status (c.take n)).almostFinished = false

instance (s : StatusTree tree) (c : Position) : Decidable (s.AncestorsRun c) :=
  inferInstanceAs (Decidable (∀ n < c.length, (s.status (c.take n)).almostFinished = false))

/-- The stores of `update_status`; the root's one does it twice. -/
def updateStores (s : StatusTree tree) (c : Position) (context : ContextTree) (st : AsyncStatus) :
    List Store :=
  let stores := context.updateStores st c s.status
  if c = [] then
    let st' := if s.usingResult ∧ st = .finished then .awaitingResult else st
    stores ++ context.updateStores st' c (context.updateStatus st c s.status)
  else stores

/-- A call on a context that is there, and has none above that is almost finished. -/
def start (s : StatusTree tree) : StatusCall → Option (StatusTree tree)
  | .updateStatus c st =>
      if s.AncestorsRun c then
        (tree.context c).map fun context => { s with pending := s.updateStores c context st }
      else none
  | .updateStatusError c errmsg =>
      if s.AncestorsRun c then
        (tree.context c).map fun _ =>
          { s with pending := [.status c .failed, .errmsg c errmsg] }
      else none
  | .usingResult => some { s with usingResult := true }
  | .setResult result =>
      -- `check_set_get_result_precondition` throws otherwise
      if s.usingResult ∧ s.status [] = .awaitingResult then
        some { s with
          pending := .result result :: tree.root.updateStores .finished [] s.status }
      else some s

def store (s : StatusTree tree) (store : Store) : StatusTree tree :=
  match store with
  | .status _ _ => { s with status := store.apply s.status }
  | .errmsg c errmsg => { s with errmsg := Function.update s.errmsg c errmsg }
  | .result result => { s with result }

def step (s : StatusTree tree) (event : StatusEvent) : Option (StatusTree tree) :=
  match event, s.pending with
  | .call call, [] => s.start call
  | .store, store :: pending => some { s.store store with pending }
  | _, _ => none

/-- Whatever is below an almost finished context is FINISHED. -/
def SubtreesFinished (s : StatusTree tree) : Prop :=
  ∀ p, (s.status p).almostFinished = true → ∀ d, d ≠ [] → (tree.context (p ++ d)).isSome = true →
    s.status (p ++ d) = .finished

end StatusTree

/-! ## The invariant -/

/-- What the comment in `update_status` calls the invariant. -/
def LocalContexts.Closed (tree : LocalContexts) (status : Position → AsyncStatus) : Prop :=
  ∀ c, (status c).almostFinished = true → ∀ i, (tree.context (c ++ [i])).isSome = true →
    status (c ++ [i]) = .finished

/-- A context may get FINISHED at any time, and another status if the one above still runs. -/
def MayStore (status : Position → AsyncStatus) (c : Position) (st : AsyncStatus) : Prop :=
  st = .finished ∨ ∀ q i, c = q ++ [i] → (status q).almostFinished = false

/-- A store that keeps the invariant. -/
def Store.Keeps (tree : LocalContexts) (status : Position → AsyncStatus) : Store → Prop
  | .status c st => MayStore status c st ∧ (st.almostFinished = true →
      ∀ i, (tree.context (c ++ [i])).isSome = true → status (c ++ [i]) = .finished)
  | .errmsg _ _ | .result _ => True

/-- Stores that keep the invariant one after the other. -/
def StoresKeep (tree : LocalContexts) : (Position → AsyncStatus) → List Store → Prop
  | _, [] => True
  | status, store :: stores =>
      store.Keeps tree status ∧ StoresKeep tree (store.apply status) stores

namespace LocalContexts

variable {tree : LocalContexts} {status : Position → AsyncStatus}

/-- At construction, only the contexts for values are FINISHED. -/
theorem closed_initialStatus (tree : LocalContexts) : tree.Closed tree.initialStatus := by
  intro c hc i hi
  exfalso
  cases ht : tree.context c with
  | none =>
      rw [initialStatus, ht] at hc
      cases hc
  | some t =>
      have hreq : t.isReq = false := by
        by_contra hreq
        rw [Bool.not_eq_false] at hreq
        rw [initialStatus, ht] at hc
        simp [ContextTree.status, hreq, AsyncStatus.almostFinished] at hc
      rw [context, Positions.sub_concat ht, tree.values c t ht hreq] at hi
      cases hi

theorem Closed.apply (h : tree.Closed status) {store : Store} (hstore : store.Keeps tree status) :
    tree.Closed (store.apply status) := by
  cases store with
  | errmsg c errmsg => exact h
  | result result => exact h
  | status c st =>
      obtain ⟨hmay, hsubs⟩ := hstore
      intro q hq i hi
      rw [Store.apply] at hq ⊢
      by_cases hqc : q = c
      · subst hqc
        rw [Function.update_self] at hq
        rw [Function.update_of_ne (by simp)]
        exact hsubs hq i hi
      · rw [Function.update_of_ne hqc] at hq
        by_cases hic : q ++ [i] = c
        · rw [← hic, Function.update_self]
          apply hmay.resolve_right
          intro hrun
          simp [hrun q i hic.symm] at hq
        · rw [Function.update_of_ne hic]
          exact h q hq i hi

theorem Closed.foldl (h : tree.Closed status) {stores : List Store}
    (hstores : StoresKeep tree status stores) : tree.Closed (stores.foldl Store.apply status) := by
  induction stores generalizing status with
  | nil => exact h
  | cons store stores ih => exact ih (h.apply hstores.1) hstores.2

theorem context_of_append {p d : Position} (h : (tree.context (p ++ d)).isSome = true) :
    (tree.context p).isSome = true := by
  obtain ⟨t, ht⟩ := Option.isSome_iff_exists.mp h
  rw [context, Positions.sub_append] at ht
  obtain ⟨t', ht', -⟩ := Option.bind_eq_some_iff.mp ht
  rw [context, ht']
  rfl

/-- The invariant, further down. -/
theorem Closed.below (h : tree.Closed status) {p d : Position}
    (hp : (status p).almostFinished = true) (hd : d ≠ [])
    (hctx : (tree.context (p ++ d)).isSome = true) : status (p ++ d) = .finished := by
  induction d generalizing p with
  | nil => exact absurd rfl hd
  | cons i d ih =>
      rw [List.append_cons] at hctx ⊢
      have hsub : status (p ++ [i]) = .finished := h p hp i (context_of_append hctx)
      cases d with
      | nil => simpa using hsub
      | cons j d =>
          apply ih
          · rw [hsub]
            rfl
          · exact List.cons_ne_nil j d
          · exact hctx

end LocalContexts

theorem storesKeep_append {tree : LocalContexts} {status : Position → AsyncStatus}
    {l l' : List Store} : StoresKeep tree status (l ++ l')
      ↔ StoresKeep tree status l ∧ StoresKeep tree (l.foldl Store.apply status) l' := by
  induction l generalizing status with
  | nil => simp [StoresKeep]
  | cons store l ih => simp [StoresKeep, ih, and_assoc]

/-! ## What the stores of a call keep -/

namespace ContextTree

variable {tree : LocalContexts}

theorem finishSubs_of_lt (subs : List ContextTree) (c : Position) (i : ℕ)
    (status : Position → AsyncStatus) {k : ℕ} (hk : k < i) :
    finishSubs subs c i status (c ++ [k]) = status (c ++ [k]) := by
  induction subs generalizing i status with
  | nil => rfl
  | cons sub subs ih =>
      rw [finishSubs, ih (i + 1) _ (by omega)]
      rcases sub.updateStatus_cases .finished (c ++ [i]) status (c ++ [k]) with h | ⟨h, -⟩
      · exact h
      · rw [List.prefix_append_right_inj] at h
        simp at h
        omega

/-- The contexts right below get FINISHED. -/
theorem finishSubs_eq (subs : List ContextTree) (c : Position) (i : ℕ)
    (status : Position → AsyncStatus) {k : ℕ} (hk : k < subs.length) :
    finishSubs subs c i status (c ++ [i + k]) = .finished := by
  induction subs generalizing i k status with
  | nil => simp at hk
  | cons sub subs ih =>
      rw [finishSubs]
      cases k with
      | zero =>
          rw [Nat.add_zero i, finishSubs_of_lt subs c (i + 1) _ (Nat.lt_succ_self i)]
          cases sub
          rw [updateStatus, Function.update_self]
      | succ k =>
          have hi : i + (k + 1) = i + 1 + k := by omega
          rw [hi]
          exact ih (i + 1) _ (Nat.lt_of_succ_lt_succ hk)

mutual
theorem storesKeep_updateStores (st : AsyncStatus) : ∀ (t : ContextTree) (c : Position)
    (status : Position → AsyncStatus), tree.context c = some t → tree.Closed status →
    MayStore status c st → StoresKeep tree status (t.updateStores st c status)
  | .node isReq subs, c, status, ht, hclosed, hmay => by
      have hat : ∀ i, tree.context (c ++ [i]) = subs[i]? := fun i => Positions.sub_concat ht i
      rw [updateStores, storesKeep_append]
      split
      · rename_i hst
        refine ⟨storesKeep_finishStores subs c 0 status ?_ hclosed, ⟨?_, ?_⟩, trivial⟩
        · intro i t hi
          rw [Nat.zero_add, hat, hi]
        · -- the stores below leave those above alone
          rw [foldl_finishStores]
          refine hmay.imp id fun hrun q i hq => ?_
          rcases finishSubs_cases subs c 0 status q with h | h
          · rw [h]
            exact hrun q i hq
          · have := h.length_le
            simp only [hq, List.length_append, List.length_cons, List.length_nil] at this
            omega
        · intro _ i hi
          rw [foldl_finishStores]
          rw [hat, isSome_getElem?] at hi
          simpa using finishSubs_eq subs c 0 status hi
      · rename_i hst
        refine ⟨trivial, ⟨hmay, ?_⟩, trivial⟩
        intro halmost i hi
        apply hclosed c _ i hi
        by_contra hc
        exact hst ⟨hc, halmost⟩
theorem storesKeep_finishStores : ∀ (subs : List ContextTree) (c : Position) (i : ℕ)
    (status : Position → AsyncStatus),
    (∀ k t, subs[k]? = some t → tree.context (c ++ [i + k]) = some t) → tree.Closed status →
    StoresKeep tree status (finishStores subs c i status)
  | [], _, _, _, _, _ => trivial
  | sub :: subs, c, i, status, hsubs, hclosed => by
      have hsub := storesKeep_updateStores .finished sub (c ++ [i]) status
        (hsubs 0 sub rfl) hclosed (.inl rfl)
      rw [finishStores, storesKeep_append]
      refine ⟨hsub, ?_⟩
      have hclosed' := hclosed.foldl hsub
      rw [foldl_updateStores] at hclosed' ⊢
      apply storesKeep_finishStores subs c (i + 1) _ _ hclosed'
      intro k t hk
      rw [Nat.add_right_comm, Nat.add_assoc]
      exact hsubs (k + 1) t hk
end

end ContextTree

namespace StatusTree

variable {tree : LocalContexts} {s s' : StatusTree tree}

/-- The tree between two stores. -/
structure Inv (s : StatusTree tree) : Prop where
  closed : tree.Closed s.status
  pending : StoresKeep tree s.status s.pending

theorem inv_initial : Inv ({} : StatusTree tree) where
  closed := tree.closed_initialStatus
  pending := trivial

theorem Inv.subtreesFinished (h : s.Inv) : s.SubtreesFinished :=
  fun _ hp _ hd hctx => h.closed.below hp hd hctx

theorem AncestorsRun.mayStore {c : Position} (h : s.AncestorsRun c) (st : AsyncStatus) :
    MayStore s.status c st := by
  refine .inr fun q i hc => ?_
  have hq := h q.length (by simp [hc])
  rwa [hc, List.take_left] at hq

theorem storesKeep_updateStores {c : Position} {context : ContextTree} (st : AsyncStatus)
    (h : tree.Closed s.status) (hctx : tree.context c = some context) (hc : s.AncestorsRun c) :
    StoresKeep tree s.status (s.updateStores c context st) := by
  have hfirst := context.storesKeep_updateStores st c s.status hctx h (hc.mayStore st)
  rw [updateStores]
  split
  · -- the root has nothing above
    rename_i hroot
    rw [storesKeep_append]
    refine ⟨hfirst, ?_⟩
    have hsecond := h.foldl hfirst
    rw [ContextTree.foldl_updateStores] at hsecond ⊢
    apply context.storesKeep_updateStores _ c _ hctx hsecond
    refine .inr fun q i hq => ?_
    simp [hroot] at hq
  · exact hfirst

theorem Inv.start {call : StatusCall} (h : s.Inv) (hs : s.start call = some s') : s'.Inv := by
  cases call with
  | updateStatus c st =>
      simp only [StatusTree.start, Option.ite_none_right_eq_some, Option.map_eq_some_iff] at hs
      obtain ⟨hc, context, hctx, rfl⟩ := hs
      exact ⟨h.closed, storesKeep_updateStores st h.closed hctx hc⟩
  | updateStatusError c errmsg =>
      simp only [StatusTree.start, Option.ite_none_right_eq_some, Option.map_eq_some_iff] at hs
      obtain ⟨hc, context, hctx, rfl⟩ := hs
      refine ⟨h.closed, ⟨hc.mayStore .failed, ?_⟩, trivial, trivial⟩
      intro hst
      cases hst
  | usingResult =>
      obtain rfl := Option.some.inj hs
      exact ⟨h.closed, h.pending⟩
  | setResult result =>
      simp only [StatusTree.start] at hs
      split at hs
      · obtain rfl := Option.some.inj hs
        refine ⟨h.closed, trivial, ?_⟩
        exact tree.root.storesKeep_updateStores .finished [] s.status rfl h.closed (.inl rfl)
      · obtain rfl := Option.some.inj hs
        exact h

theorem store_status (s : StatusTree tree) (store : Store) :
    (s.store store).status = store.apply s.status := by
  cases store <;> rfl

theorem step_cases {event : StatusEvent} (hs : s.step event = some s') :
    (∃ call, event = .call call ∧ s.pending = [] ∧ s.start call = some s')
      ∨ ∃ store pending, event = .store ∧ s.pending = store :: pending
          ∧ s' = { s.store store with pending } := by
  unfold StatusTree.step at hs
  split at hs
  · rename_i call hpending
    exact .inl ⟨call, rfl, hpending, hs⟩
  · rename_i store pending hpending
    exact .inr ⟨store, pending, rfl, hpending, (Option.some.inj hs).symm⟩
  · cases hs

theorem Inv.step {event : StatusEvent} (h : s.Inv) (hs : s.step event = some s') : s'.Inv := by
  rcases step_cases hs with ⟨call, -, -, hstart⟩ | ⟨store, pending, -, hpending, rfl⟩
  · exact h.start hstart
  · have hkeep := h.pending
    rw [hpending] at hkeep
    constructor
    · rw [store_status]
      exact h.closed.apply hkeep.1
    · rw [store_status]
      exact hkeep.2

/-- Whatever calls are made, an almost finished context has only FINISHED ones below, at any
time. -/
theorem along_subtreesFinished (tree : LocalContexts) (events : List StatusEvent) :
    Transition.Along step SubtreesFinished ({} : StatusTree tree) events :=
  Transition.along_of_stepsMeet (fun _ => Inv.subtreesFinished)
    (fun _ _ _ h hs _ => h.step hs) inv_initial
    (Transition.stepsMeet_of_forall (fun _ _ => trivial) _ events)

end StatusTree

/-! ## Resolutions -/

variable {T F V : Type}

/-- The stores of an uninterrupted call do what `update_status` does in a resolution. -/
theorem StatusTree.foldl_updateStores (x : Resolution T F V) (c : Position) (st : AsyncStatus)
    (s : StatusTree (LocalContexts.ofRequest x.request)) {context : ContextTree}
    (hstatus : s.status = x.status) (husing : s.usingResult = x.usingResult)
    (hctx : (LocalContexts.ofRequest x.request).context c = some context) :
    (s.updateStores c context st).foldl Store.apply s.status = (x.updateStatus c st).status := by
  have hsub : Positions.sub ContextTree.subs (contextTree x.request) c = some context := hctx
  rw [StatusTree.updateStores, Resolution.updateStatus, hsub]
  dsimp only
  split
  · rw [List.foldl_append, ContextTree.foldl_updateStores, ContextTree.foldl_updateStores,
      hstatus, husing]
  · rw [ContextTree.foldl_updateStores, hstatus]

end Cradle.Async
