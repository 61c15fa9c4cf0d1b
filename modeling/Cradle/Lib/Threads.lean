import Mathlib.Data.List.Basic
import Mathlib.Tactic.TypeStar

/-!
# Threads that share a state

A thread is a list of instructions, which are executed one at a time on the shared state
and may put further instructions in front of the rest.  An instruction that throws makes
the thread go on with its handler.  A pool runs its threads in any order.

Each thread carries a tag, such as the call that it executes.
-/

namespace Threads

/-- What an instruction does: it changes the state, and the thread goes on with the given
instructions before the rest, or throws. -/
inductive Effect (σ ι : Type*)
  | next (s : σ) (pushed : List ι)
  | throws (s : σ)

structure Thread (τ ι : Type*) where
  tag : τ
  code : List ι
  handler : List ι := []

section
variable {σ τ ι : Type*} (exec : σ → ι → Effect σ ι)

/-- Execute the next instruction of a thread, if there is one. -/
def stepThread (s : σ) (t : Thread τ ι) : Option (σ × Thread τ ι) :=
  match t.code with
  | [] => none
  | i :: rest =>
      match exec s i with
      | .next s' pushed => some (s', { t with code := pushed ++ rest })
      | .throws s' => some (s', { t with code := t.handler, handler := [] })

/-- Execute the next instruction of the thread with the given index. -/
def stepPool (s : σ) (ts : List (Thread τ ι)) (n : ℕ) : Option (σ × List (Thread τ ι)) :=
  ts[n]?.bind fun t => (stepThread exec s t).map fun r => (r.1, ts.set n r.2)

variable {exec} {s s' : σ} {t t' : Thread τ ι} {ts ts' : List (Thread τ ι)} {n : ℕ}

/-- The two ways for a thread to make a step. -/
theorem stepThread_cases (h : stepThread exec s t = some (s', t')) :
    ∃ i rest, t.code = i :: rest
      ∧ ((∃ pushed, exec s i = .next s' pushed ∧ t' = { t with code := pushed ++ rest })
        ∨ (exec s i = .throws s' ∧ t' = { t with code := t.handler, handler := [] })) := by
  rw [stepThread] at h
  cases hcode : t.code with
  | nil => simp [hcode] at h
  | cons i rest =>
      rw [hcode] at h
      refine ⟨i, rest, rfl, ?_⟩
      cases hexec : exec s i with
      | next s₁ pushed =>
          simp only [hexec, Option.some.injEq, Prod.mk.injEq] at h
          obtain ⟨rfl, rfl⟩ := h
          exact .inl ⟨pushed, rfl, rfl⟩
      | throws s₁ =>
          simp only [hexec, Option.some.injEq, Prod.mk.injEq] at h
          obtain ⟨rfl, rfl⟩ := h
          exact .inr ⟨rfl, rfl⟩

theorem stepPool_cases (h : stepPool exec s ts n = some (s', ts')) :
    ∃ t t', ts[n]? = some t ∧ stepThread exec s t = some (s', t') ∧ ts' = ts.set n t' := by
  obtain ⟨t, ht, hrest⟩ := Option.bind_eq_some_iff.mp h
  obtain ⟨⟨s₁, t'⟩, hstep, heq⟩ := Option.map_eq_some_iff.mp hrest
  obtain ⟨rfl, rfl⟩ := Prod.mk.inj heq
  exact ⟨t, t', ht, hstep, rfl⟩

/-- What holds of all threads holds after a step of one of them, if it holds of that one
and the step keeps it for the others. -/
theorem forall_mem_set {P Q : Thread τ ι → Prop} (hP : ∀ u ∈ ts, P u) (hkeep : ∀ u, P u → Q u)
    (ht : Q t') : ∀ u ∈ ts.set n t', Q u := by
  intro u hu
  rcases List.mem_or_eq_of_mem_set hu with hu | rfl
  · exact hkeep u (hP u hu)
  · exact ht

/-- A thread of some kind is still there after a step, if the step keeps the kind. -/
theorem exists_mem_set {P : Thread τ ι → Prop} (h : ∃ u ∈ ts, P u) (ht : ts[n]? = some t)
    (hkeep : P t → P t') : ∃ u ∈ ts.set n t', P u := by
  obtain ⟨u, hu, hP⟩ := h
  obtain ⟨m, hm⟩ := List.mem_iff_getElem?.mp hu
  by_cases hmn : m = n
  · subst hmn
    obtain rfl : t = u := Option.some.inj (ht.symm.trans hm)
    have hlt : m < ts.length := (List.getElem?_eq_some_iff.mp ht).1
    exact ⟨t', List.mem_set hlt t', hkeep hP⟩
  · refine ⟨u, List.mem_iff_getElem?.mpr ⟨m, ?_⟩, hP⟩
    rw [List.getElem?_set_ne (Ne.symm hmn)]
    exact hm

end
end Threads
