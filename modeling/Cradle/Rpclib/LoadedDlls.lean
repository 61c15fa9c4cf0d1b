import Cradle.Lib.Transition
import Mathlib.Logic.Function.Basic

/-!
# Loaded DLLs

A server has one collection of DLLs for all its clients.  Each client keeps a set of the
names that it has loaded, and skips the remote call for a name that is in its set.  A call
of `load_shared_library` that returns is meant to leave the DLL loaded on the server, unless
someone unloads it meanwhile.  What another client unloads stays in the set, though.

The calls are numbered; several threads can use one client, whose set is protected by a
mutex that a call holds until it returns or throws.  A remote call that throws may still
reach the server: its request is carried out later, or never.

`unloaded` is not in the program: it says of a call that an unload of its name has been
carried out since it has started.  A call that has returned remembers that, and whether the
DLL was loaded.
-/

namespace Cradle.Rpclib

/-! ## The server -/

/-- `dll_collection`, with the names of the controllers. -/
structure DllCollection where
  controllers : List String := []

namespace DllCollection

instance : Membership String DllCollection := ⟨fun dlls name => name ∈ dlls.controllers⟩

instance (name : String) (dlls : DllCollection) : Decidable (name ∈ dlls) :=
  inferInstanceAs (Decidable (name ∈ dlls.controllers))

/-- `load`; `failure` is what the constructor of the controller throws, if it does. -/
def load (dlls : DllCollection) (name : String) (failure : Option String) :
    Except String Unit × DllCollection :=
  if name ∈ dlls then (.ok (), dlls)
  else
    match failure with
    | some what => (.error what, dlls)
    | none => (.ok (), ⟨name :: dlls.controllers⟩)

def unload (dlls : DllCollection) (name : String) : Except String Unit × DllCollection :=
  if name ∈ dlls then (.ok (), ⟨dlls.controllers.filter (· ≠ name)⟩)
  else (.error ("no DLL loaded named " ++ name), dlls)

variable {dlls : DllCollection} {name other : String} {failure : Option String}

theorem mem_load (h : other ∈ dlls) : other ∈ (dlls.load name failure).2 := by
  rw [load.eq_def]
  split
  · exact h
  · split
    · exact h
    · exact List.mem_cons_of_mem name h

/-- A load without an error leaves the DLL loaded. -/
theorem mem_of_load_ok (h : (dlls.load name failure).1 = .ok ()) :
    name ∈ (dlls.load name failure).2 := by
  rw [load.eq_def] at h ⊢
  split
  case isTrue hmem => exact hmem
  case isFalse hmem =>
      rw [if_neg hmem] at h
      cases failure with
      | some what => simp at h
      | none => exact List.mem_cons_self

theorem mem_unload (h : other ∈ dlls) (hne : other ≠ name) : other ∈ (dlls.unload name).2 := by
  rw [unload]
  split
  · exact List.mem_filter.mpr ⟨h, by simpa using hne⟩
  · exact h

end DllCollection

/-! ## Clients and their calls -/

inductive DllOp
  | load (dirPath name : String)
  | unload (name : String)
  deriving DecidableEq, Repr

def DllOp.name : DllOp → String
  | load _ name | unload name => name

inductive CallPhase
  /-- Before the mutex is acquired. -/
  | waiting
  /-- The name is in the set. -/
  | skipping
  /-- The request has been sent; the response of the server, when it is there. -/
  | calling (response : Option (Except String Unit))
  /-- Whether the DLL was loaded then, and whether an unload was carried out before. -/
  | returned (loaded unloaded : Bool)
  | threw
  deriving DecidableEq

structure DllCall where
  client : ℕ
  op : DllOp
  phase : CallPhase := .waiting
  unloaded : Bool := false
  deriving DecidableEq

/-- The server, the requests on their way to it, and the clients with their calls. -/
structure DllSystem where
  dlls : DllCollection := {}
  requests : List ℕ := []
  loadedDlls : ℕ → List String := fun _ => []
  mutex : ℕ → Bool := fun _ => false
  calls : ℕ → Option DllCall := fun _ => none

inductive DllEvent
  | start (call client : ℕ) (op : DllOp)
  /-- The call acquires the mutex, and looks into the set or sends its request. -/
  | enter (call : ℕ)
  /-- The server carries out a request. -/
  | handle (call : ℕ) (failure : Option String)
  /-- The client gets the response. -/
  | receive (call : ℕ)
  /-- The remote call fails or times out. -/
  | fail (call : ℕ)
  /-- A call that skips its request returns. -/
  | skip (call : ℕ)

namespace DllSystem

def setCall (s : DllSystem) (k : ℕ) (c : DllCall) : DllSystem :=
  { s with calls := Function.update s.calls k (some c) }

/-- The mutex is acquired; a load looks into the set, an unload erases the name from it. -/
def enter (s : DllSystem) (k : ℕ) (c : DllCall) : DllSystem :=
  let s := { s with mutex := Function.update s.mutex c.client true }
  match c.op with
  | .load _ name =>
      if name ∈ s.loadedDlls c.client then s.setCall k { c with phase := .skipping }
      else { s with requests := k :: s.requests }.setCall k { c with phase := .calling none }
  | .unload name =>
      { s with
        loadedDlls := Function.update s.loadedDlls c.client
          ((s.loadedDlls c.client).filter (· ≠ name))
        requests := k :: s.requests }.setCall k { c with phase := .calling none }

/-- The response goes to the call, if it still waits for it. -/
def respond (s : DllSystem) (k : ℕ) (response : Except String Unit) : DllSystem :=
  match s.calls k with
  | some c =>
      match c.phase with
      | .calling none => s.setCall k { c with phase := .calling (some response) }
      | _ => s
  | none => s

/-- The calls about the name are told of the unload. -/
def noteUnload (s : DllSystem) (name : String) : DllSystem :=
  { s with calls := fun k => (s.calls k).map fun c =>
      if c.op.name = name then { c with unloaded := true } else c }

/-- `handle_load_shared_library` and `handle_unload_shared_library`. -/
def handle (s : DllSystem) (k : ℕ) (op : DllOp) (failure : Option String) : DllSystem :=
  let s := { s with requests := s.requests.erase k }
  match op with
  | .load _ name =>
      let (response, dlls) := s.dlls.load name failure
      { s with dlls }.respond k response
  | .unload name =>
      let (response, dlls) := s.dlls.unload name
      ({ s with dlls }.noteUnload name).respond k response

/-- The call is over, and the mutex is released. -/
def leave (s : DllSystem) (k : ℕ) (c : DllCall) (phase : CallPhase) : DllSystem :=
  { s with mutex := Function.update s.mutex c.client false }.setCall k { c with phase }

/-- What a call remembers that returns. -/
def returning (s : DllSystem) (c : DllCall) : CallPhase :=
  .returned (decide (c.op.name ∈ s.dlls)) c.unloaded

/-- The end of a remote call. -/
def receive (s : DllSystem) (k : ℕ) (c : DllCall) : Except String Unit → DllSystem
  | .error _ => s.leave k c .threw
  | .ok () =>
      match c.op with
      | .load _ name =>
          { s with
            loadedDlls := Function.update s.loadedDlls c.client
              (name :: s.loadedDlls c.client) }.leave k c (s.returning c)
      | .unload _ => s.leave k c (s.returning c)

def step (s : DllSystem) : DllEvent → Option DllSystem
  | .start k client op =>
      if s.calls k = none then some (s.setCall k { client, op }) else none
  | .enter k => (s.calls k).bind fun c =>
      if c.phase = .waiting ∧ s.mutex c.client = false then some (s.enter k c) else none
  | .handle k failure => (s.calls k).bind fun c =>
      if k ∈ s.requests then some (s.handle k c.op failure) else none
  | .receive k => (s.calls k).bind fun c =>
      match c.phase with
      | .calling (some response) => some (s.receive k c response)
      | _ => none
  | .fail k => (s.calls k).bind fun c =>
      match c.phase with
      | .calling _ => some (s.leave k c .threw)
      | _ => none
  | .skip k => (s.calls k).bind fun c =>
      if c.phase = .skipping then some (s.leave k c (s.returning c)) else none

/-! ## What the calls are meant to do -/

/-- A load that has returned, and during which no unload of its name was carried out, has left
the DLL loaded. -/
def LoadsHold (s : DllSystem) : Prop :=
  ∀ k c dirPath name loaded, s.calls k = some c → c.op = .load dirPath name →
    c.phase = .returned loaded false → loaded = true

/-- A load that finds its name in the set of the client finds the DLL on the server, or an
unload has been carried out since it has started. -/
def HitsAreLoaded (s : DllSystem) : DllEvent → Prop
  | .enter k => ∀ c dirPath name, s.calls k = some c → c.op = .load dirPath name →
      name ∈ s.loadedDlls c.client → name ∈ s.dlls ∨ c.unloaded = true
  | _ => True

/-- The condition for the one call that it is about. -/
theorem hitsAreLoaded_enter {s : DllSystem} {k : ℕ} {c : DllCall} (hc : s.calls k = some c) :
    s.HitsAreLoaded (.enter k) ↔ ∀ dirPath name, c.op = .load dirPath name →
      name ∈ s.loadedDlls c.client → name ∈ s.dlls ∨ c.unloaded = true := by
  constructor
  · exact fun h dirPath name => h c dirPath name hc
  · intro h d dirPath name hd
    obtain rfl : c = d := Option.some.inj (hc.symm.trans hd)
    exact h dirPath name

instance (s : DllSystem) (e : DllEvent) : Decidable (s.HitsAreLoaded e) :=
  match e with
  | .enter k =>
      match hc : s.calls k with
      | none => .isTrue (by simp [HitsAreLoaded, hc])
      | some ⟨client, .load _ name, _, unloaded⟩ =>
          decidable_of_iff (name ∈ s.loadedDlls client → name ∈ s.dlls ∨ unloaded = true)
            (by simp [hitsAreLoaded_enter hc])
      | some ⟨_, .unload _, _, _⟩ => .isTrue (by simp [hitsAreLoaded_enter hc])
  | .start _ _ _ | .handle _ _ | .receive _ | .fail _ | .skip _ => .isTrue trivial

/-- What holds of a load by the DLLs of the server. -/
def CallOk (dlls : DllCollection) (c : DllCall) : Prop :=
  ∀ dirPath name, c.op = .load dirPath name →
    match c.phase with
    | .skipping | .calling (some (.ok ())) => name ∈ dlls ∨ c.unloaded = true
    | .returned loaded unloaded => unloaded = false → loaded = true
    | _ => True

def Invariant (s : DllSystem) : Prop := ∀ k c, s.calls k = some c → CallOk s.dlls c

/-! ## Why they do it -/

variable {s s' : DllSystem} {k : ℕ} {c : DllCall}

theorem Invariant.loadsHold (h : s.Invariant) : s.LoadsHold := by
  intro k c dirPath name loaded hc hop hphase
  have hok := h k c hc dirPath name hop
  rw [hphase] at hok
  exact hok rfl

/-- One call changes, and the others find the DLLs that they need. -/
theorem Invariant.setCall (h : s.Invariant) (hc : CallOk s.dlls c) : (s.setCall k c).Invariant := by
  intro l d hd
  by_cases hl : l = k
  · subst hl
    obtain rfl : c = d := by simpa [DllSystem.setCall] using hd
    exact hc
  · exact h l d (by simpa [DllSystem.setCall, hl] using hd)

/-- More DLLs do no harm. -/
theorem CallOk.mono {dlls dlls' : DllCollection} (h : CallOk dlls c)
    (hsub : ∀ name ∈ dlls, name ∈ dlls') : CallOk dlls' c := by
  intro dirPath name hop
  have hok := h dirPath name hop
  split at hok
  · exact hok.imp_left (hsub name)
  · exact hok.imp_left (hsub name)
  · exact hok
  · trivial

/-- A call whose phase asks for nothing. -/
theorem callOk_of_phase {dlls : DllCollection}
    (h : ∀ dirPath name, c.op = .load dirPath name → c.phase = .waiting ∨ c.phase = .calling none
      ∨ (∃ e, c.phase = .calling (some (.error e))) ∨ c.phase = .threw) : CallOk dlls c := by
  intro dirPath name hop
  obtain hp | hp | ⟨e, hp⟩ | hp := h dirPath name hop <;> rw [hp] <;> trivial

/-- What an unload takes away has been noted by the calls about it. -/
theorem CallOk.unload {dlls : DllCollection} (h : CallOk dlls c) (name : String) :
    CallOk (dlls.unload name).2 (if c.op.name = name then { c with unloaded := true } else c) := by
  intro dirPath other hop
  by_cases hname : c.op.name = name
  · rw [if_pos hname] at hop ⊢
    have hok := h dirPath other hop
    cases hphase : c.phase with
    | waiting => trivial
    | skipping => exact .inr rfl
    | calling response =>
        cases response with
        | none => trivial
        | some r =>
            cases r with
            | error e => trivial
            | ok u => exact .inr rfl
    | returned loaded unloaded =>
        rw [hphase] at hok
        exact hok
    | threw => trivial
  · rw [if_neg hname] at hop ⊢
    have hok := h dirPath other hop
    have hne : other ≠ name := by
      rw [hop] at hname
      exact hname
    split at hok
    · exact hok.imp_left fun hmem => DllCollection.mem_unload hmem hne
    · exact hok.imp_left fun hmem => DllCollection.mem_unload hmem hne
    · exact hok
    · trivial

theorem Invariant.leave (h : s.Invariant) {phase : CallPhase}
    (hc : CallOk s.dlls { c with phase }) : (s.leave k c phase).Invariant :=
  Invariant.setCall (s := { s with mutex := Function.update s.mutex c.client false }) h hc

theorem callOk_threw {dlls : DllCollection} : CallOk dlls { c with phase := .threw } :=
  callOk_of_phase fun _ _ _ => .inr (.inr (.inr rfl))

/-- A call returns as it should while its DLL is loaded, or after an unload. -/
theorem callOk_returning
    (h : ∀ dirPath name, c.op = .load dirPath name → name ∈ s.dlls ∨ c.unloaded = true) :
    CallOk s.dlls { c with phase := s.returning c } := by
  intro dirPath name hop hunloaded
  have hname : c.op.name = name := congrArg DllOp.name hop
  rw [hname, decide_eq_true_iff]
  rcases h dirPath name hop with hmem | htrue
  · exact hmem
  · rw [htrue] at hunloaded
    exact absurd hunloaded (by decide)

theorem Invariant.enter (h : s.Invariant)
    (hhit : ∀ dirPath name, c.op = .load dirPath name → name ∈ s.loadedDlls c.client →
      name ∈ s.dlls ∨ c.unloaded = true) : (s.enter k c).Invariant := by
  rw [DllSystem.enter]
  cases hop : c.op with
  | load dirPath name =>
      dsimp only
      split
      case isTrue hmem =>
          refine Invariant.setCall h fun dirPath' name' hop' => ?_
          obtain ⟨-, rfl⟩ := DllOp.load.inj hop'
          exact hhit dirPath name hop hmem
      case isFalse =>
          exact Invariant.setCall h (callOk_of_phase fun _ _ _ => .inr (.inl rfl))
  | unload name =>
      exact Invariant.setCall h (callOk_of_phase fun _ _ _ => .inr (.inl rfl))

/-- The response to a load is positive with the DLL loaded only. -/
theorem Invariant.respond (h : s.Invariant) {response : Except String Unit}
    (hok : response = .ok () → ∀ c dirPath name, s.calls k = some c →
      c.op = .load dirPath name → name ∈ s.dlls) : (s.respond k response).Invariant := by
  rw [DllSystem.respond.eq_def]
  split
  · rename_i c hc
    split
    · refine h.setCall fun dirPath name hop => ?_
      cases response with
      | error e => trivial
      | ok u => exact .inl (hok rfl c dirPath name hc hop)
    · exact h
  · exact h

theorem Invariant.noteUnload (h : s.Invariant) (name : String) :
    Invariant ({ s with dlls := (s.dlls.unload name).2 }.noteUnload name) := by
  intro k c hc
  obtain ⟨d, hd, rfl⟩ := Option.map_eq_some_iff.mp hc
  exact (h k d hd).unload name

theorem Invariant.handle (h : s.Invariant) (hc : s.calls k = some c) (failure : Option String) :
    (s.handle k c.op failure).Invariant := by
  rw [DllSystem.handle.eq_def]
  cases hop : c.op with
  | load dirPath name =>
      refine Invariant.respond ?_ fun hok d dirPath' name' hd hop' => ?_
      · exact fun l d hd => (h l d hd).mono fun other => DllCollection.mem_load
      · obtain rfl : c = d := Option.some.inj (hc.symm.trans hd)
        obtain ⟨-, rfl⟩ := DllOp.load.inj (hop.symm.trans hop')
        exact DllCollection.mem_of_load_ok hok
  | unload name =>
      refine Invariant.respond ?_ fun _ d dirPath' name' hd hop' => ?_
      · exact Invariant.noteUnload (s := { s with requests := s.requests.erase k }) h name
      · -- the request is that of an unload
        obtain ⟨e, he, rfl⟩ := Option.map_eq_some_iff.mp hd
        obtain rfl : c = e := Option.some.inj (hc.symm.trans he)
        have hsame : (if c.op.name = name then { c with unloaded := true } else c).op = c.op := by
          split <;> rfl
        rw [hsame, hop] at hop'
        simp at hop'

theorem Invariant.receive (h : s.Invariant) (hc : s.calls k = some c)
    {response : Except String Unit} (hphase : c.phase = .calling (some response)) :
    (s.receive k c response).Invariant := by
  cases response with
  | error e => exact h.leave callOk_threw
  | ok u =>
      have hreturning : CallOk s.dlls { c with phase := s.returning c } := by
        refine callOk_returning fun dirPath name hop => ?_
        have hok := h k c hc dirPath name hop
        rwa [hphase] at hok
      rw [DllSystem.receive.eq_def]
      cases hop : c.op with
      | load dirPath name => exact Invariant.leave (s := { s with loadedDlls := _ }) h hreturning
      | unload name => exact h.leave hreturning

theorem Invariant.step (h : s.Invariant) {e : DllEvent} (hok : s.HitsAreLoaded e)
    (hstep : s.step e = some s') : s'.Invariant := by
  cases e with
  | start k client op =>
      rw [DllSystem.step] at hstep
      split at hstep
      · rw [← Option.some.inj hstep]
        exact h.setCall (callOk_of_phase fun _ _ _ => .inl rfl)
      · simp at hstep
  | enter k =>
      obtain ⟨c, hc, hstep⟩ := Option.bind_eq_some_iff.mp hstep
      split at hstep
      · rw [← Option.some.inj hstep]
        exact h.enter fun dirPath name hop => hok c dirPath name hc hop
      · simp at hstep
  | handle k failure =>
      obtain ⟨c, hc, hstep⟩ := Option.bind_eq_some_iff.mp hstep
      split at hstep
      · rw [← Option.some.inj hstep]
        exact h.handle hc failure
      · simp at hstep
  | receive k =>
      obtain ⟨c, hc, hstep⟩ := Option.bind_eq_some_iff.mp hstep
      split at hstep
      · rename_i response hphase
        rw [← Option.some.inj hstep]
        exact h.receive hc hphase
      · simp at hstep
  | fail k =>
      obtain ⟨c, hc, hstep⟩ := Option.bind_eq_some_iff.mp hstep
      split at hstep
      · rw [← Option.some.inj hstep]
        exact h.leave callOk_threw
      · simp at hstep
  | skip k =>
      obtain ⟨c, hc, hstep⟩ := Option.bind_eq_some_iff.mp hstep
      split at hstep
      · rename_i hphase
        rw [← Option.some.inj hstep]
        refine h.leave (callOk_returning fun dirPath name hop => ?_)
        have hok := h k c hc dirPath name hop
        rwa [hphase] at hok
      · simp at hstep

theorem invariant_empty : Invariant {} := by
  intro k c hc
  simp at hc

/-- A load that is skipped without its DLL can return at once, and then the DLL is missing. -/
theorem skip_breaks {s₁ : DllSystem} (henter : s.step (.enter k) = some s₁)
    (hmiss : ¬ s.HitsAreLoaded (.enter k)) : ∃ s₂, s₁.step (.skip k) = some s₂ ∧ ¬ s₂.LoadsHold := by
  obtain ⟨c, hc, henter⟩ := Option.bind_eq_some_iff.mp henter
  simp only [hitsAreLoaded_enter hc, not_forall, not_or] at hmiss
  obtain ⟨dirPath, name, hop, hmem, hdll, hunloaded⟩ := hmiss
  split at henter
  case isFalse => simp at henter
  case isTrue =>
      have hskipping : s₁.calls k = some { c with phase := .skipping } := by
        rw [← Option.some.inj henter, DllSystem.enter]
        simp [hop, hmem, DllSystem.setCall]
      have hdlls : s₁.dlls = s.dlls := by
        rw [← Option.some.inj henter, DllSystem.enter]
        simp [hop, hmem, DllSystem.setCall]
      refine ⟨_, by simp only [DllSystem.step, hskipping, Option.bind_some, if_true]; rfl, ?_⟩
      intro hholds
      have hname : c.op.name = name := congrArg DllOp.name hop
      have hloaded := hholds k { c with phase := s₁.returning { c with phase := .skipping } }
        dirPath name (decide (name ∈ s.dlls)) (by simp [leave, DllSystem.setCall]) hop
        (by simp [returning, hname, hdlls, hunloaded])
      exact hdll (of_decide_eq_true hloaded)

/-- Where every load that is skipped finds its DLL, or an unload has come before, the loads hold
at any time.  One that does not may return without its DLL. -/
theorem along_loadsHold {events : List DllEvent}
    (hok : Transition.StepsMeet step HitsAreLoaded {} events) :
    Transition.Along step LoadsHold {} events
      ∧ ∀ s s₁ k, Transition.run step {} events = some s → s.step (.enter k) = some s₁ →
        ¬ s.HitsAreLoaded (.enter k) → ∃ s₂, s₁.step (.skip k) = some s₂ ∧ ¬ s₂.LoadsHold := by
  refine ⟨?_, fun s s₁ k _ => skip_breaks⟩
  refine Transition.along_of_stepsMeet (I := Invariant) ?_ ?_ invariant_empty hok
  · exact fun s h => h.loadsHold
  · exact fun s s' e h hstep hok => h.step hok hstep

/-- Two clients load a DLL, which is opened once; the second one unloads it, and the call of
a third one loads it again. -/
def reloaded : List DllEvent :=
  [.start 0 0 (.load "/dlls" "x0"), .enter 0, .handle 0 none, .receive 0,
    .start 1 1 (.load "/dlls" "x0"), .enter 1, .handle 1 none, .receive 1,
    .start 2 1 (.unload "x0"), .enter 2, .handle 2 none, .receive 2,
    .start 3 2 (.load "/dlls" "x0"), .enter 3, .handle 3 none, .receive 3]

/-- Another client's unload is not seen by the one that has the name in its set. -/
def unloadedByAnother : List DllEvent :=
  [.start 0 0 (.load "/dlls" "x0"), .enter 0, .handle 0 none, .receive 0,
    .start 1 1 (.unload "x0"), .enter 1, .handle 1 none, .receive 1,
    .start 2 0 (.load "/dlls" "x0"), .enter 2, .skip 2]

theorem along_loadsHold_reloaded : Transition.Along step LoadsHold {} reloaded :=
  (along_loadsHold (by decide)).1

theorem not_along_loadsHold : ¬ ∀ events, Transition.Along step LoadsHold {} events := by
  intro h
  have hreturned : (Transition.run step {} unloadedByAnother).bind (fun s => s.calls 2)
      = some ⟨0, .load "/dlls" "x0", .returned false false, false⟩ := by
    decide
  obtain ⟨s, hrun, hcall⟩ := Option.bind_eq_some_iff.mp hreturned
  have hloaded := (h unloadedByAnother).run hrun 2 _ "/dlls" "x0" false hcall rfl rfl
  simp at hloaded

end DllSystem
end Cradle.Rpclib
