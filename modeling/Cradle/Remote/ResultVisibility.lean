import Cradle.Lib.Transition
import Cradle.Remote.AsyncContext

/-!
# When a result becomes visible

`get_result` relies on the status FINISHED to mean that `set_result` has stored the
result, and a root context that uses the result is meant to go to AWAITING_RESULT
instead when its resolution has finished.  But its `update_status` calls the one of its
base class first, which stores FINISHED, and corrects that with a second store.  A query
between the two stores sees FINISHED too early.
-/

namespace Cradle.Remote

open Threads

namespace Instr

/-- The instruction stores FINISHED in the root, perhaps after some others. -/
def finishing : Instr → Bool
  | .updateBase st | .store st => st = .finished
  | _ => false

/-- The instruction stores another status in the root, perhaps after some others. -/
def leaving : Instr → Bool
  | .updateBase st | .store st => st ≠ .finished
  | .redirect _ => true
  | _ => false

/-- The instruction belongs to a call of `update_status`. -/
def updating : Instr → Bool
  | .updateSub _ _ | .storeSub _ _ | .updateBase _ | .store _ | .redirect _ => true
  | _ => false

/-- The instruction looks at the status on behalf of a client. -/
def looking : Instr → Bool
  | .getStatus | .checkGetResult | .poll _ => true
  | _ => false

end Instr

/-- The status FINISHED is seen only after the result was stored, and what is returned is
the stored result. -/
def Observation.Justified : Observation → Prop
  | .status st stored => st = .finished → stored ≠ none
  | .result b stored _ => stored = some b
  | _ => True

/-- A context and the calls on it that have been started. -/
structure ContextSystem where
  context : RootContext
  threads : List (Thread Call Instr) := []

namespace ContextSystem

/-- Start a call, or execute one access of a call that was started. -/
inductive Action
  | call (call : Call)
  | run (n : ℕ)

def step (s : ContextSystem) : Action → Option ContextSystem
  | .call call => some { s with threads := s.threads ++ [{ tag := call, code := call.code }] }
  | .run n => (stepPool RootContext.exec s.context s.threads n).map fun r => ⟨r.1, r.2⟩

/-- A new context on which `using_result` was called, with any tree below it. -/
def start : Set ContextSystem :=
  { s | s.context.usingResult = true ∧ s.context.status = .created ∧ s.context.stored = none
      ∧ s.context.observations = [] ∧ s.threads = [] }

/-! ## The condition -/

/-- What is left of a call of `update_status(FINISHED)` between its two stores. -/
structure SecondHalf (call : Call) (code : List Instr) : Prop where
  finished : call = .updateStatus .finished
  updating : ∀ i ∈ code, i.updating = true ∧ i.finishing = false
  leaving : ∃ i ∈ code, i.leaving = true

instance (call : Call) (code : List Instr) : Decidable (SecondHalf call code) :=
  decidable_of_iff (call = .updateStatus .finished
      ∧ (∀ i ∈ code, i.updating = true ∧ i.finishing = false) ∧ ∃ i ∈ code, i.leaving = true)
    ⟨fun h => ⟨h.1, h.2.1, h.2.2⟩, fun h => ⟨h.finished, h.updating, h.leaving⟩⟩

/-- As long as the result is not stored, the status is not looked at while a call of
`update_status(FINISHED)` is between its two stores. -/
def LooksOutside (s : ContextSystem) : Action → Prop
  | .call _ => True
  | .run n => ∀ t ∈ s.threads[n]?, (∃ i ∈ t.code.head?, i.looking = true) →
      s.context.stored ≠ none ∨ ∀ u ∈ s.threads, ¬ SecondHalf u.tag u.code

instance (s : ContextSystem) (a : Action) : Decidable (LooksOutside s a) :=
  match a with
  | .call _ => .isTrue trivial
  | .run n => inferInstanceAs (Decidable (∀ t ∈ s.threads[n]?, (∃ i ∈ t.code.head?,
      i.looking = true) → s.context.stored ≠ none ∨ ∀ u ∈ s.threads, ¬ SecondHalf u.tag u.code))

/-! ## The invariant -/

/-- The code of a call is safe, given whether the result is known to be stored: FINISHED is
stored only with the result or in the first half of `update_status`, and the result is read
only after the check of `get_result`. -/
def Safe (call : Call) : Bool → List Instr → Prop
  | _, [] => True
  | known, i :: rest =>
      (i.finishing = true → known = true ∨ SecondHalf call rest)
        ∧ match i with
          | .storeResult _ | .checkGetResult => Safe call true rest
          | .readResult => known = true ∧ Safe call known rest
          | .poll _ => False
          | _ => Safe call known rest

/-- FINISHED means that the result is stored, or that a call is between its two stores. -/
structure Visible (s : ContextSystem) : Prop where
  usesResult : s.context.usingResult = true
  result : ∀ b, s.context.stored = some b → s.context.result = b
  safe : ∀ t ∈ s.threads, Safe t.tag s.context.stored.isSome t.code ∧ t.handler = []
  finished : s.context.status = .finished →
    s.context.stored ≠ none ∨ ∃ t ∈ s.threads, SecondHalf t.tag t.code
  justified : ∀ o ∈ s.context.observations, o.Justified

/-- Knowing that the result is stored does no harm. -/
theorem Safe.known {call : Call} {known : Bool} {code : List Instr} (h : Safe call known code) :
    Safe call true code := by
  induction code generalizing known with
  | nil => trivial
  | cons i rest ih =>
      obtain ⟨-, hrest⟩ := h
      refine ⟨fun _ => .inl rfl, ?_⟩
      cases i with
      | readResult => exact ⟨rfl, ih hrest.2⟩
      | poll response => exact hrest
      | storeResult b => exact hrest
      | checkGetResult => exact hrest
      | _ => exact ih hrest

/-- Updates of contexts below the root are safe. -/
theorem Safe.updateSubs {call : Call} {known : Bool} {rest : List Instr}
    (h : Safe call known rest) (ids : List ℕ) (st : AsyncStatus) :
    Safe call known (ids.map (Instr.updateSub · st) ++ rest) := by
  induction ids with
  | nil => exact h
  | cons id ids ih => exact ⟨by simp [Instr.finishing], ih⟩

section
variable {c c' : RootContext} {call : Call} {i : Instr} {rest pushed : List Instr}

/-- The second half of `update_status(FINISHED)` ends with another status. -/
theorem SecondHalf.step (h : SecondHalf call (i :: rest)) (huses : c.usingResult = true)
    (hexec : c.exec i = .next c' pushed) :
    c'.status ≠ .finished ∨ c'.status = c.status ∧ SecondHalf call (pushed ++ rest) := by
  obtain ⟨hupdating, hfinishing⟩ := h.updating i List.mem_cons_self
  have hrest : ∀ j ∈ rest, j.updating = true ∧ j.finishing = false := fun j hj =>
    h.updating j (List.mem_cons_of_mem i hj)
  -- the pushed instructions are of the same kind, and one that leaves is still there
  have hnext : (∀ j ∈ pushed, j.updating = true ∧ j.finishing = false) →
      ((∃ j ∈ pushed, j.leaving = true) ∨ i.leaving = false) →
        SecondHalf call (pushed ++ rest) := by
    intro hpushed hleaves
    refine ⟨h.finished, fun j hj => ?_, ?_⟩
    · rcases List.mem_append.mp hj with hj | hj
      · exact hpushed j hj
      · exact hrest j hj
    · rcases hleaves with ⟨j, hj, hl⟩ | hnot
      · exact ⟨j, List.mem_append_left _ hj, hl⟩
      · obtain ⟨j, hj, hl⟩ := h.leaving
        rcases List.mem_cons.mp hj with rfl | hj
        · simp [hnot] at hl
        · exact ⟨j, List.mem_append_right _ hj, hl⟩
  cases i with
  | updateSub id st =>
      obtain ⟨rfl, rfl⟩ := Effect.next.inj hexec
      refine .inr ⟨rfl, hnext (fun j hj => ?_) (.inr rfl)⟩
      rcases mem_updates hj with ⟨m, rfl⟩ | rfl
      · exact ⟨rfl, rfl⟩
      · exact ⟨rfl, rfl⟩
  | storeSub id st =>
      obtain ⟨rfl, rfl⟩ := Effect.next.inj hexec
      exact .inr ⟨rfl, hnext (fun j hj => by simp at hj) (.inr rfl)⟩
  | updateBase st =>
      obtain ⟨rfl, rfl⟩ := Effect.next.inj hexec
      have hst : st ≠ .finished := by simpa [Instr.finishing] using hfinishing
      refine .inr ⟨rfl, hnext (fun j hj => ?_) (.inl ⟨.store st, by simp, ?_⟩)⟩
      · rcases mem_updates hj with ⟨m, rfl⟩ | rfl
        · exact ⟨rfl, rfl⟩
        · exact ⟨rfl, by simp [Instr.finishing, hst]⟩
      · simp [Instr.leaving, hst]
  | store st =>
      obtain ⟨rfl, rfl⟩ := Effect.next.inj hexec
      exact .inl (by simpa [Instr.finishing] using hfinishing)
  | redirect st =>
      obtain ⟨rfl, rfl⟩ := Effect.next.inj hexec
      have hst : (if c.usingResult = true ∧ st = .finished then AsyncStatus.awaitingResult
          else st) ≠ .finished := by
        rw [huses]
        by_cases hst : st = .finished
        · simp [hst]
        · simp [hst]
      refine .inr ⟨rfl, hnext (fun j hj => ?_) (.inl ⟨_, List.mem_singleton.mpr rfl, ?_⟩)⟩
      · rw [List.mem_singleton.mp hj]
        exact ⟨rfl, by simpa [Instr.finishing] using hst⟩
      · simpa [Instr.leaving] using hst
  | _ => simp [Instr.updating] at hupdating

/-- What one access changes of the status, the result and the observations. -/
theorem exec_cases (hexec : c.exec i = .next c' pushed) (hpoll : ∀ response, i ≠ .poll response) :
    c'.usingResult = c.usingResult
      ∧ (c'.status = c.status ∨ i = .store c'.status)
      ∧ (c'.stored = c.stored ∧ c'.result = c.result
        ∨ ∃ b, i = .storeResult b ∧ c'.stored = some b ∧ c'.result = b)
      ∧ (c'.observations = c.observations
        ∨ i = .getStatus ∧ c'.observations = c.observations ++ [.status c.status c.stored]
        ∨ i = .readResult
          ∧ c'.observations = c.observations ++ [.result c.result c.stored c.completed]
        ∨ c'.observations = c.observations ++ [.recordId c.cacheRecordId]) := by
  cases i with
  | poll response => exact absurd rfl (hpoll response)
  | checkSetResult =>
      simp only [RootContext.exec] at hexec
      split at hexec
      · obtain ⟨rfl, rfl⟩ := Effect.next.inj hexec
        exact ⟨rfl, .inl rfl, .inl ⟨rfl, rfl⟩, .inl rfl⟩
      · cases hexec
  | onValueComplete =>
      simp only [RootContext.exec] at hexec
      split at hexec
      · obtain ⟨rfl, rfl⟩ := Effect.next.inj hexec
        exact ⟨rfl, .inl rfl, .inl ⟨rfl, rfl⟩, .inl rfl⟩
      · cases hexec
  | checkGetResult =>
      simp only [RootContext.exec] at hexec
      split at hexec
      · obtain ⟨rfl, rfl⟩ := Effect.next.inj hexec
        exact ⟨rfl, .inl rfl, .inl ⟨rfl, rfl⟩, .inl rfl⟩
      · cases hexec
  | store st =>
      obtain ⟨rfl, rfl⟩ := Effect.next.inj hexec
      exact ⟨rfl, .inr rfl, .inl ⟨rfl, rfl⟩, .inl rfl⟩
  | storeResult b =>
      obtain ⟨rfl, rfl⟩ := Effect.next.inj hexec
      exact ⟨rfl, .inl rfl, .inr ⟨b, rfl, rfl, rfl⟩, .inl rfl⟩
  | getStatus =>
      obtain ⟨rfl, rfl⟩ := Effect.next.inj hexec
      exact ⟨rfl, .inl rfl, .inl ⟨rfl, rfl⟩, .inr (.inl ⟨rfl, rfl⟩)⟩
  | readResult =>
      obtain ⟨rfl, rfl⟩ := Effect.next.inj hexec
      exact ⟨rfl, .inl rfl, .inl ⟨rfl, rfl⟩, .inr (.inr (.inl ⟨rfl, rfl⟩))⟩
  | getCacheRecordId =>
      obtain ⟨rfl, rfl⟩ := Effect.next.inj hexec
      exact ⟨rfl, .inl rfl, .inl ⟨rfl, rfl⟩, .inr (.inr (.inr rfl))⟩
  | _ =>
      obtain ⟨rfl, rfl⟩ := Effect.next.inj hexec
      exact ⟨rfl, .inl rfl, .inl ⟨rfl, rfl⟩, .inl rfl⟩

/-- An access that throws changes nothing, apart from the observation that it was refused. -/
theorem exec_throws (hexec : c.exec i = .throws c') (hpoll : ∀ response, i ≠ .poll response) :
    i.updating = false ∧ (c' = c ∨ c' = c.observe .refused) := by
  cases i with
  | poll response => exact absurd rfl (hpoll response)
  | checkSetResult =>
      simp only [RootContext.exec] at hexec
      split at hexec
      · cases hexec
      · exact ⟨rfl, .inl (Effect.throws.inj hexec).symm⟩
  | onValueComplete =>
      simp only [RootContext.exec] at hexec
      split at hexec
      · cases hexec
      · exact ⟨rfl, .inl (Effect.throws.inj hexec).symm⟩
  | checkGetResult =>
      simp only [RootContext.exec] at hexec
      split at hexec
      · cases hexec
      · exact ⟨rfl, .inr (Effect.throws.inj hexec).symm⟩
  | _ => cases hexec

/-- The rest of a safe call is safe; a check of `get_result` that passes must mean that the
result is stored. -/
theorem Safe.step (h : Safe call c.stored.isSome (i :: rest)) (huses : c.usingResult = true)
    (hexec : c.exec i = .next c' pushed)
    (hcheck : i = .checkGetResult → c'.stored.isSome = true) :
    Safe call c'.stored.isSome (pushed ++ rest) := by
  obtain ⟨hfinishing, hrest⟩ := h
  cases i with
  | updateSub id st =>
      obtain ⟨rfl, rfl⟩ := Effect.next.inj hexec
      have hlast : Safe call c.stored.isSome ([.storeSub id st] ++ rest) :=
        ⟨by simp [Instr.finishing], hrest⟩
      rw [List.append_assoc]
      split
      · exact hlast.updateSubs _ _
      · exact hlast
  | updateBase st =>
      obtain ⟨rfl, rfl⟩ := Effect.next.inj hexec
      have hlast : Safe call c.stored.isSome ([.store st] ++ rest) := ⟨hfinishing, hrest⟩
      rw [List.append_assoc]
      split
      · exact hlast.updateSubs _ _
      · exact hlast
  | redirect st =>
      obtain ⟨rfl, rfl⟩ := Effect.next.inj hexec
      refine ⟨fun hfin => absurd hfin ?_, hrest⟩
      by_cases hst : st = .finished <;> simp [Instr.finishing, huses, hst]
  | checkSetResult =>
      simp only [RootContext.exec] at hexec
      split at hexec
      · obtain ⟨rfl, rfl⟩ := Effect.next.inj hexec
        exact hrest
      · cases hexec
  | storeResult b =>
      obtain ⟨rfl, rfl⟩ := Effect.next.inj hexec
      exact hrest
  | checkGetResult =>
      have hknown := hcheck rfl
      simp only [RootContext.exec] at hexec
      split at hexec
      · obtain ⟨rfl, rfl⟩ := Effect.next.inj hexec
        rw [hknown]
        exact hrest
      · cases hexec
  | readResult =>
      obtain ⟨rfl, rfl⟩ := Effect.next.inj hexec
      exact hrest.2
  | poll response => exact hrest.elim
  | onValueComplete =>
      simp only [RootContext.exec] at hexec
      split at hexec
      · obtain ⟨rfl, rfl⟩ := Effect.next.inj hexec
        have hclear : Safe call c.stored.isSome ([.clearBlobFileWriters] ++ rest) :=
          ⟨by simp [Instr.finishing], hrest⟩
        rw [List.append_assoc]
        generalize c.blobFileWriters = paths
        induction paths with
        | nil => exact hclear
        | cons path paths ih => exact ⟨by simp [Instr.finishing], ih⟩
      · cases hexec
  | _ =>
      obtain ⟨rfl, rfl⟩ := Effect.next.inj hexec
      exact hrest

end

/-! ## One step -/

theorem Visible.call {s : ContextSystem} (h : Visible s) (call : Call) :
    Visible { s with threads := s.threads ++ [{ tag := call, code := call.code }] } := by
  refine ⟨h.usesResult, h.result, fun t ht => ?_, fun hfin => ?_, h.justified⟩
  · rcases List.mem_append.mp ht with ht | ht
    · exact h.safe t ht
    · obtain rfl := List.mem_singleton.mp ht
      refine ⟨?_, rfl⟩
      cases call with
      | updateStatus st =>
          refine ⟨fun hfin => .inr ?_, fun hfin => by simp [Instr.finishing] at hfin, trivial⟩
          have hst : st = .finished := by simpa [Instr.finishing] using hfin
          subst hst
          exact ⟨rfl, by simp [Instr.updating, Instr.finishing], by simp [Instr.leaving]⟩
      | updateStatusError errmsg => simp [Call.code, Safe, Instr.finishing]
      | setResult b => simp [Call.code, Safe, Instr.finishing]
      | getStatus => simp [Call.code, Safe, Instr.finishing]
      | getResult => simp [Call.code, Safe, Instr.finishing]
  · rcases h.finished hfin with hstored | ⟨t, ht, hhalf⟩
    · exact .inl hstored
    · exact .inr ⟨t, List.mem_append_left _ ht, hhalf⟩

/-- An access that throws ends its call, which was not in its second half. -/
theorem Visible.throws {s : ContextSystem} {n : ℕ} {t : Thread Call Instr} {i : Instr}
    {rest : List Instr} {c' : RootContext} (h : Visible s) (hn : s.threads[n]? = some t)
    (hcode : t.code = i :: rest) (hexec : s.context.exec i = .throws c')
    (hpoll : ∀ response, i ≠ .poll response) :
    Visible ⟨c', s.threads.set n { t with code := t.handler, handler := [] }⟩ := by
  have ht : t ∈ s.threads := List.mem_of_getElem? hn
  obtain ⟨hupdating, hc'⟩ := exec_throws hexec hpoll
  have hsame : c'.usingResult = s.context.usingResult ∧ c'.status = s.context.status
      ∧ c'.stored = s.context.stored ∧ c'.result = s.context.result := by
    rcases hc' with rfl | rfl <;> exact ⟨rfl, rfl, rfl, rfl⟩
  obtain ⟨huses, hstatus, hstored, hresult⟩ := hsame
  refine ⟨huses.trans h.usesResult, ?_, ?_, ?_, ?_⟩
  · rw [hstored, hresult]
    exact h.result
  · rw [hstored]
    refine forall_mem_set h.safe (fun u hu => hu) ?_
    rw [(h.safe t ht).2]
    exact ⟨trivial, rfl⟩
  · rw [hstatus, hstored]
    intro hfin
    rcases h.finished hfin with hs | hhalf
    · exact .inl hs
    · refine .inr (exists_mem_set hhalf hn fun hthis => ?_)
      have := (hthis.updating i (by rw [hcode]; exact List.mem_cons_self)).1
      simp [hupdating] at this
  · rcases hc' with rfl | rfl
    · exact h.justified
    · exact RootContext.forall_observe h.justified trivial

/-- An access that succeeds.  A look at the status sees FINISHED only when the result is
stored, which is what the condition on the looks gives. -/
theorem Visible.next {s : ContextSystem} {n : ℕ} {t : Thread Call Instr} {i : Instr}
    {rest pushed : List Instr} {c' : RootContext} (h : Visible s) (hn : s.threads[n]? = some t)
    (hcode : t.code = i :: rest) (hexec : s.context.exec i = .next c' pushed)
    (hpoll : ∀ response, i ≠ .poll response)
    (hlook : i.looking = true → s.context.status = .finished → s.context.stored ≠ none) :
    Visible ⟨c', s.threads.set n { t with code := pushed ++ rest }⟩ := by
  have ht : t ∈ s.threads := List.mem_of_getElem? hn
  obtain ⟨hsafe, hhandler⟩ := h.safe t ht
  rw [hcode] at hsafe
  obtain ⟨huses, hstatus, hstored, hobs⟩ := exec_cases hexec hpoll
  have hkeeps : s.context.stored ≠ none → c'.stored ≠ none := by
    rcases hstored with ⟨heq, -⟩ | ⟨b, -, heq, -⟩
    · rw [heq]
      exact id
    · simp [heq]
  have hcheck : i = .checkGetResult → c'.stored.isSome = true := by
    rintro rfl
    have hfin : s.context.status = .finished := by
      by_contra hne
      simp [RootContext.exec, hne] at hexec
    exact Option.isSome_iff_ne_none.mpr (hkeeps (hlook rfl hfin))
  refine ⟨huses.trans h.usesResult, ?_, ?_, ?_, ?_⟩
  · rcases hstored with ⟨heq, hres⟩ | ⟨b, -, heq, hres⟩
    · rw [heq, hres]
      exact h.result
    · intro b' hb'
      rw [heq] at hb'
      exact hres.trans (Option.some.inj hb')
  · refine forall_mem_set h.safe (fun u hu => ⟨?_, hu.2⟩)
      ⟨hsafe.step h.usesResult hexec hcheck, hhandler⟩
    rcases hstored with ⟨heq, -⟩ | ⟨b, -, heq, -⟩
    · rw [heq]
      exact hu.1
    · rw [heq]
      exact hu.1.known
  · intro hfin
    by_cases hstore : i = .store c'.status
    · -- FINISHED was just stored
      have hmay := hsafe.1 (by rw [hstore, hfin]; rfl)
      rcases hmay with hknown | hhalf
      · exact .inl (hkeeps (Option.isSome_iff_ne_none.mp hknown))
      · have hpushed : pushed = [] := by
          rw [hstore] at hexec
          exact (Effect.next.inj hexec).2.symm
        have hlt : n < s.threads.length := (List.getElem?_eq_some_iff.mp hn).1
        exact .inr ⟨_, List.mem_set hlt _, by rw [hpushed]; exact hhalf⟩
    · have hbefore : c'.status = s.context.status := hstatus.resolve_right hstore
      rcases h.finished (hbefore ▸ hfin) with hs | hhalf
      · exact .inl (hkeeps hs)
      · refine .inr (exists_mem_set hhalf hn fun hthis => ?_)
        rw [hcode] at hthis
        rcases hthis.step h.usesResult hexec with hne | ⟨-, hnext⟩
        · exact absurd hfin hne
        · exact hnext
  · rcases hobs with heq | ⟨rfl, heq⟩ | ⟨rfl, heq⟩ | heq
    · rw [heq]
      exact h.justified
    · rw [heq]
      exact RootContext.forall_observe h.justified (hlook rfl)
    · rw [heq]
      obtain ⟨b, hb⟩ := Option.ne_none_iff_exists'.mp (Option.isSome_iff_ne_none.mp hsafe.2.1)
      refine RootContext.forall_observe h.justified ?_
      rw [hb, h.result b hb]
      exact rfl
    · rw [heq]
      exact RootContext.forall_observe h.justified trivial

theorem Visible.step {s s' : ContextSystem} {a : Action} (h : Visible s) (hok : LooksOutside s a)
    (hstep : s.step a = some s') : Visible s' := by
  cases a with
  | call call =>
      obtain rfl := Option.some.inj hstep
      exact h.call call
  | run n =>
      obtain ⟨⟨c', ts'⟩, hpool, rfl⟩ := Option.map_eq_some_iff.mp hstep
      obtain ⟨t, t', hn, hthread, rfl⟩ := stepPool_cases hpool
      obtain ⟨i, rest, hcode, hcases⟩ := stepThread_cases hthread
      have hpoll : ∀ response, i ≠ .poll response := by
        rintro response rfl
        have hsafe := (h.safe t (List.mem_of_getElem? hn)).1
        rw [hcode] at hsafe
        exact hsafe.2
      rcases hcases with ⟨pushed, hexec, rfl⟩ | ⟨hexec, rfl⟩
      · refine h.next hn hcode hexec hpoll fun hlooking hfin => ?_
        rcases h.finished hfin with hs | ⟨u, hu, hhalf⟩
        · exact hs
        · rcases hok t hn ⟨i, by rw [hcode]; rfl, hlooking⟩ with hs | hnone
          · exact hs
          · exact absurd hhalf (hnone u hu)
      · exact h.throws hn hcode hexec hpoll

/-! ## Every run -/

/-- In every run in which the status is not looked at between the two stores of
`update_status(FINISHED)`, FINISHED is seen only when the result is stored, and `get_result`
returns the stored result. -/
theorem justified_of_looksOutside {s : ContextSystem}
    (h : Transition.Reachable step LooksOutside start s) :
    ∀ o ∈ s.context.observations, o.Justified := by
  refine (h.invariant (I := Visible) (fun s hs => ?_)
    (fun s s' a hI hok hstep => hI.step hok hstep)).justified
  obtain ⟨huses, hstatus, hstored, hobs, hthreads⟩ := hs
  refine ⟨huses, ?_, ?_, ?_, ?_⟩
  · simp [hstored]
  · simp [hthreads]
  · simp [hstatus]
  · simp [hobs]

/-- A new context that uses the result, with one context below it. -/
def newContext : ContextSystem := { context := { usingResult := true, subs := [0] } }

/-- The resolution finishes, the result is set, and a client asks for both. -/
def inTurn : List Action :=
  [.call (.updateStatus .finished), .call (.setResult (.ofBytes [7])), .call .getStatus,
    .call .getResult] ++ ([0, 0, 0, 0, 0, 0, 0] ++ [1, 1, 1, 1] ++ [2, 3, 3]).map Action.run

theorem justified_inTurn : ∃ s, Transition.run step newContext inTurn = some s
    ∧ s.context.observations = [.status .finished (some (.ofBytes [7])),
        .result (.ofBytes [7]) (some (.ofBytes [7])) []]
    ∧ ∀ o ∈ s.context.observations, o.Justified := by
  obtain ⟨s, hrun⟩ : ∃ s, Transition.run step newContext inTurn = some s :=
    Option.isSome_iff_exists.mp (by decide)
  have hobs : (Transition.run step newContext inTurn).map (·.context.observations)
      = some [.status .finished (some (.ofBytes [7])),
          .result (.ofBytes [7]) (some (.ofBytes [7])) []] := by
    decide
  have hstart : newContext ∈ start := ⟨rfl, rfl, rfl, rfl, rfl⟩
  have hmeet : Transition.StepsMeet step LooksOutside newContext inTurn := by decide
  rw [hrun] at hobs
  exact ⟨s, hrun, Option.some.inj hobs,
    justified_of_looksOutside (.run_of_stepsMeet (.start hstart) hmeet hrun)⟩

/-- A client asks after the first store of FINISHED, before the result is set. -/
def tooEarly : List Action :=
  [.call (.updateStatus .finished), .call .getResult] ++ [0, 0, 0, 0, 1, 1].map Action.run

/-- The client gets the default blob as the result. -/
theorem not_justified_tooEarly :
    ¬ ∀ s, Transition.Reachable step (fun _ _ => True) start s →
      ∀ o ∈ s.context.observations, o.Justified := by
  intro h
  obtain ⟨s, hrun⟩ : ∃ s, Transition.run step newContext tooEarly = some s :=
    Option.isSome_iff_exists.mp (by decide)
  have hobs : (Transition.run step newContext tooEarly).map (·.context.observations)
      = some [.result { data := [], nullData := true } none []] := by
    decide
  have hstart : newContext ∈ start := ⟨rfl, rfl, rfl, rfl, rfl⟩
  have hreach := Transition.Reachable.run (.start hstart) hrun
  rw [hrun] at hobs
  have hall := h s hreach
  rw [show s.context.observations = _ from Option.some.inj hobs] at hall
  have hresult := hall _ (List.mem_singleton.mpr rfl)
  simp [Observation.Justified] at hresult

end ContextSystem
end Cradle.Remote
