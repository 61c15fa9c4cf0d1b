import Mathlib.Data.Set.Basic

/-!
# Runs of a guarded transition system

A system is a partial step function `step : σ → α → Option σ`, where `none` means
that the action is not enabled.  `Reachable step ok init` are the states of the runs
that start in `init` and whose every step satisfies `ok`.
-/

namespace Transition

variable {σ α : Type*}

/-- States reached by runs all of whose steps satisfy `ok`. -/
inductive Reachable (step : σ → α → Option σ) (ok : σ → α → Prop) (init : Set σ) : σ → Prop
  | start {s : σ} (h : s ∈ init) : Reachable step ok init s
  | step {s s' : σ} {a : α} (h : Reachable step ok init s) (hok : ok s a)
      (hstep : step s a = some s') : Reachable step ok init s'

variable {step : σ → α → Option σ} {ok : σ → α → Prop} {init : Set σ}

/-- The invariant rule: what holds at the start and survives each step holds always. -/
theorem Reachable.invariant {I : σ → Prop} (hstart : ∀ s ∈ init, I s)
    (hstep : ∀ s s' a, I s → ok s a → step s a = some s' → I s') {s : σ}
    (h : Reachable step ok init s) : I s := by
  induction h with
  | start h => exact hstart _ h
  | step _ hok hs ih => exact hstep _ _ _ ih hok hs

/-- The state after a list of actions, or `none` when one of them is not enabled. -/
def run (step : σ → α → Option σ) (s : σ) : List α → Option σ
  | [] => some s
  | a :: as => (step s a).bind fun s' => run step s' as

/-- A run of calls that are always enabled. -/
theorem run_some (f : σ → α → σ) (s : σ) (as : List α) :
    run (fun s a => some (f s a)) s as = some (as.foldl f s) := by
  induction as generalizing s with
  | nil => rfl
  | cons a as ih => exact ih (f s a)

theorem run_append (s : σ) (as bs : List α) :
    run step s (as ++ bs) = (run step s as).bind fun s' => run step s' bs := by
  induction as generalizing s with
  | nil => rfl
  | cons a as ih => simp [run, ih, Option.bind_assoc]

theorem Reachable.run {s : σ} (h : Reachable step (fun _ _ => True) init s) :
    ∀ {as : List α} {s' : σ}, run step s as = some s' →
      Reachable step (fun _ _ => True) init s' := by
  intro as
  induction as generalizing s with
  | nil => rintro s' ⟨⟩; exact h
  | cons a as ih =>
      intro s' hrun
      obtain ⟨s₁, hs, hrest⟩ := Option.bind_eq_some_iff.mp hrun
      exact ih (.step h trivial hs) hrest

/-! ## What holds all along one run -/

/-- `P` holds in every state that the run of `as` from `s` goes through. -/
def Along (step : σ → α → Option σ) (P : σ → Prop) : σ → List α → Prop
  | s, [] => P s
  | s, a :: as => P s ∧ ∀ s', step s a = some s' → Along step P s' as

theorem along_cons {P : σ → Prop} {s s₁ : σ} {a : α} {as : List α} (h : step s a = some s₁) :
    Along step P s (a :: as) ↔ P s ∧ Along step P s₁ as := by
  simp [Along, h]

instance Along.decidable {P : σ → Prop} [DecidablePred P] (s : σ) (as : List α) :
    Decidable (Along step P s as) :=
  match as with
  | [] => inferInstanceAs (Decidable (P s))
  | a :: as =>
      match h : step s a with
      | none => decidable_of_iff (P s) (by simp [Along, h])
      | some s₁ =>
          have := Along.decidable (P := P) s₁ as
          decidable_of_iff _ (along_cons h).symm

/-- What holds all along a run holds at its start. -/
theorem Along.head {P : σ → Prop} {s : σ} {as : List α} (h : Along step P s as) : P s := by
  cases as with
  | nil => exact h
  | cons a as => exact h.1

/-- Every step that the run of `as` from `s` takes satisfies `ok`. -/
def StepsMeet (step : σ → α → Option σ) (ok : σ → α → Prop) : σ → List α → Prop
  | _, [] => True
  | s, a :: as => ∀ s', step s a = some s' → ok s a ∧ StepsMeet step ok s' as

theorem stepsMeet_cons {s s₁ : σ} {a : α} {as : List α} (h : step s a = some s₁) :
    StepsMeet step ok s (a :: as) ↔ ok s a ∧ StepsMeet step ok s₁ as := by
  simp [StepsMeet, h]

instance StepsMeet.decidable [∀ s a, Decidable (ok s a)] (s : σ) (as : List α) :
    Decidable (StepsMeet step ok s as) :=
  match as with
  | [] => .isTrue trivial
  | a :: as =>
      match h : step s a with
      | none => .isTrue (by simp [StepsMeet, h])
      | some s₁ =>
          have := StepsMeet.decidable s₁ as
          decidable_of_iff _ (stepsMeet_cons h).symm

/-- A run whose steps are good leads to a reachable state. -/
theorem Reachable.run_of_stepsMeet {s s' : σ} {as : List α} (h : Reachable step ok init s)
    (hok : StepsMeet step ok s as) (hrun : Transition.run step s as = some s') :
    Reachable step ok init s' := by
  induction as generalizing s with
  | nil =>
      obtain rfl := Option.some.inj hrun
      exact h
  | cons a as ih =>
      obtain ⟨s₁, hs, hrest⟩ := Option.bind_eq_some_iff.mp hrun
      obtain ⟨hoka, hoks⟩ := hok s₁ hs
      exact ih (.step h hoka hs) hoks hrest

theorem Along.run {P : σ → Prop} {s s' : σ} {as : List α} (h : Along step P s as)
    (hrun : run step s as = some s') : P s' := by
  induction as generalizing s with
  | nil =>
      obtain rfl := Option.some.inj hrun
      exact h
  | cons a as ih =>
      obtain ⟨s₁, hs, hrest⟩ := Option.bind_eq_some_iff.mp hrun
      exact ih (h.2 s₁ hs) hrest

theorem stepsMeet_of_forall (h : ∀ s a, ok s a) (s : σ) (as : List α) :
    StepsMeet step ok s as := by
  induction as generalizing s with
  | nil => trivial
  | cons a as ih => exact fun s' _ => ⟨h s a, ih s'⟩

theorem stepsMeet_of_forall_mem {as : List α} (h : ∀ a ∈ as, ∀ s, ok s a) (s : σ) :
    StepsMeet step ok s as := by
  induction as generalizing s with
  | nil => trivial
  | cons a as ih =>
      obtain ⟨ha, has⟩ := List.forall_mem_cons.mp h
      exact fun s' _ => ⟨ha s, ih has s'⟩

/-- When the good steps keep an invariant that gives `P`, then `P` holds all along a run
whose steps are good. -/
theorem along_of_stepsMeet {I P : σ → Prop} (hI : ∀ s, I s → P s)
    (hgood : ∀ s s' a, I s → step s a = some s' → ok s a → I s') {s : σ} (hs : I s)
    {as : List α} (h : StepsMeet step ok s as) : Along step P s as := by
  induction as generalizing s with
  | nil => exact hI s hs
  | cons a as ih =>
      refine ⟨hI s hs, fun s' hstep => ?_⟩
      obtain ⟨hok, hrest⟩ := h s' hstep
      exact ih (hgood s s' a hs hstep hok) hrest

/-- When the good steps keep an invariant that gives `P`, and a step that is not good
breaks `P`, then `P` holds all along a run exactly if all its steps are good. -/
theorem along_iff_stepsMeet {I P : σ → Prop} (hI : ∀ s, I s → P s)
    (hgood : ∀ s s' a, I s → step s a = some s' → ok s a → I s')
    (hbad : ∀ s s' a, I s → step s a = some s' → P s' → ok s a) {s : σ} (hs : I s)
    (as : List α) : Along step P s as ↔ StepsMeet step ok s as := by
  induction as generalizing s with
  | nil => exact ⟨fun _ => trivial, fun _ => hI s hs⟩
  | cons a as ih =>
      refine ⟨?_, along_of_stepsMeet hI hgood hs⟩
      rintro ⟨-, h⟩ s' hstep
      have hrest := h s' hstep
      have hok : ok s a := hbad s s' a hs hstep hrest.head
      exact ⟨hok, (ih (hgood s s' a hs hstep hok)).mp hrest⟩

end Transition
