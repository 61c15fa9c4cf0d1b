import Mathlib.Data.Nat.Notation
import Mathlib.Tactic.TypeStar

/-!
# Coroutines that share a state

A coroutine runs to its end on a shared state and leaves with a value or an
exception.  One that waits for itself, or reads through a pointer to nothing, has no
outcome that the language defines: it is `stuck`.

`Yields I t o` specifies a coroutine by a pure computation: started in a state that
satisfies `I`, it ends in such a state, with the value of `o`, or with some exception
when `o` is `none`.  Two other specifications are about the state: `Keeps I t Q`, that `t`
keeps the invariant `I` however it ends, with a value in `Q` if it ends with one, and
`Returns I t J`, that `t` ends with a value and leads from `I` to `J`.  There is one rule
for each way to build coroutines.
-/

/-- How a coroutine ends. -/
inductive Outcome (ε α : Type*)
  | value (a : α)
  | exception (e : ε)
  | stuck
  deriving DecidableEq, Repr

/-- The outcome is the value of the pure computation, or an exception if it has none. -/
def Outcome.Is {ε α : Type*} : Outcome ε α → Option α → Prop
  | .value a, o => o = some a
  | .exception _, o => o = none
  | .stuck, _ => False

instance {ε α : Type*} [DecidableEq α] (r : Outcome ε α) (o : Option α) : Decidable (r.Is o) :=
  match r with
  | .value a => inferInstanceAs (Decidable (o = some a))
  | .exception _ => inferInstanceAs (Decidable (o = none))
  | .stuck => inferInstanceAs (Decidable False)

/-- A computation on a shared state. -/
def Coro (σ ε α : Type*) := σ → Outcome ε α × σ

namespace Coro

universe u
variable {σ ε : Type*} {α β : Type u}

instance : Monad (Coro σ ε) where
  pure a := fun s => (.value a, s)
  bind t f := fun s =>
    match t s with
    | (.value a, s) => f a s
    | (.exception e, s) => (.exception e, s)
    | (.stuck, s) => (.stuck, s)

/-- End with the result of a function that may throw. -/
def ofExcept : Except ε α → Coro σ ε α
  | .ok a => fun s => (.value a, s)
  | .error e => fun s => (.exception e, s)

/-- A destructor: `cleanup` runs when `t` is left, in whichever way. -/
def ensuring (t : Coro σ ε α) (cleanup : σ → σ) : Coro σ ε α := fun s =>
  match t s with
  | (.stuck, s) => (.stuck, s)
  | (r, s) => (r, cleanup s)

/-- A handler that does `cleanup` and throws again. -/
def onException (t : Coro σ ε α) (cleanup : σ → σ) : Coro σ ε α := fun s =>
  match t s with
  | (.exception e, s) => (.exception e, cleanup s)
  | r => r

/-- Run two coroutines, the second one even if the first one throws; the first exception
is thrown when both have ended. -/
def whenBoth (t : Coro σ ε α) (u : Coro σ ε β) : Coro σ ε (α × β) := fun s =>
  match t s with
  | (.stuck, s) => (.stuck, s)
  | (.value a, s) =>
      match u s with
      | (.value b, s) => (.value (a, b), s)
      | (.exception e, s) => (.exception e, s)
      | (.stuck, s) => (.stuck, s)
  | (.exception e, s) =>
      match u s with
      | (.stuck, s) => (.stuck, s)
      | (_, s) => (.exception e, s)

/-- Run a coroutine again after an exception that allows it, at most `n` times. -/
def retry (again : ε → Bool) (t : Coro σ ε α) : ℕ → Coro σ ε α
  | 0 => t
  | n + 1 => fun s =>
      match t s with
      | (.exception e, s) => if again e then retry again t n s else (.exception e, s)
      | r => r

/-! ## Running -/

section
variable {t : Coro σ ε α} {s s' : σ} {a : α} {e : ε} {cleanup : σ → σ}

theorem bind_of_value (h : t s = (.value a, s')) (f : α → Coro σ ε β) : (t >>= f) s = f a s' := by
  simp only [Bind.bind, h]

theorem bind_of_exception (h : t s = (.exception e, s')) (f : α → Coro σ ε β) :
    (t >>= f) s = (.exception e, s') := by
  simp only [Bind.bind, h]

theorem ofExcept_ok_bind (a : α) (f : α → Coro σ ε β) : (ofExcept (.ok a) >>= f) = f a := rfl

theorem ensuring_of_value (h : t s = (.value a, s')) :
    t.ensuring cleanup s = (.value a, cleanup s') := by
  simp only [ensuring, h]

theorem ensuring_of_exception (h : t s = (.exception e, s')) :
    t.ensuring cleanup s = (.exception e, cleanup s') := by
  simp only [ensuring, h]

theorem onException_of_value (h : t s = (.value a, s')) :
    t.onException cleanup s = (.value a, s') := by
  simp only [onException, h]

theorem onException_of_exception (h : t s = (.exception e, s')) :
    t.onException cleanup s = (.exception e, cleanup s') := by
  simp only [onException, h]

end

/-! ## Specifications -/

/-- From a state in `I` the coroutine ends in one, with the outcome `o`. -/
def Yields (I : σ → Prop) (t : Coro σ ε α) (o : Option α) : Prop :=
  ∀ s, I s → (t s).1.Is o ∧ I (t s).2

namespace Yields

variable {I : σ → Prop} {t : Coro σ ε α} {o : Option α}

/-- The two ways for a coroutine to end. -/
theorem run (h : Yields I t o) {s : σ} (hs : I s) :
    ∃ s', I s' ∧ ((∃ a, t s = (.value a, s') ∧ o = some a)
      ∨ ∃ e, t s = (.exception e, s') ∧ o = none) := by
  obtain ⟨hr, hs'⟩ := h s hs
  generalize t s = r at hr hs'
  match r with
  | (.value a, s') => exact ⟨s', hs', .inl ⟨a, rfl, hr⟩⟩
  | (.exception e, s') => exact ⟨s', hs', .inr ⟨e, rfl, hr⟩⟩

theorem pure (a : α) : Yields I (Pure.pure a : Coro σ ε α) (some a) :=
  fun _ hs => ⟨rfl, hs⟩

theorem ofExcept (r : Except ε α) : Yields I (Coro.ofExcept r : Coro σ ε α) r.toOption := by
  intro s hs
  cases r with
  | error e => exact ⟨rfl, hs⟩
  | ok a => exact ⟨rfl, hs⟩

theorem bind (ht : Yields I t o) {f : α → Coro σ ε β} {g : α → Option β}
    (hf : ∀ a, o = some a → Yields I (f a) (g a)) : Yields I (t >>= f) (o.bind g) := by
  intro s hs
  obtain ⟨s', hs', ⟨a, hrun, ho⟩ | ⟨e, hrun, ho⟩⟩ := ht.run hs
  · rw [bind_of_value hrun, ho]
    exact hf a ho s' hs'
  · rw [bind_of_exception hrun, ho]
    exact ⟨rfl, hs'⟩

theorem whenBoth (ht : Yields I t o) {u : Coro σ ε β} {o' : Option β} (hu : Yields I u o') :
    Yields I (t.whenBoth u) (o.bind fun a => o'.map (a, ·)) := by
  intro s hs
  rw [Coro.whenBoth]
  obtain ⟨s', hs', ⟨a, hrun, ho⟩ | ⟨e, hrun, ho⟩⟩ := ht.run hs
  · obtain ⟨s'', hs'', ⟨b, hrun', ho'⟩ | ⟨e', hrun', ho'⟩⟩ := hu.run hs'
    · simp only [hrun, hrun', ho, ho']
      exact ⟨rfl, hs''⟩
    · simp only [hrun, hrun', ho, ho']
      exact ⟨rfl, hs''⟩
  · obtain ⟨s'', hs'', ⟨b, hrun', ho'⟩ | ⟨e', hrun', ho'⟩⟩ := hu.run hs'
    · simp only [hrun, hrun', ho]
      exact ⟨rfl, hs''⟩
    · simp only [hrun, hrun', ho]
      exact ⟨rfl, hs''⟩

/-- Trying again does not help a coroutine that is specified by a pure computation. -/
theorem retry (ht : Yields I t o) (again : ε → Bool) (n : ℕ) : Yields I (t.retry again n) o := by
  induction n with
  | zero => exact ht
  | succ n ih =>
      intro s hs
      rw [Coro.retry]
      obtain ⟨s', hs', ⟨a, hrun, ho⟩ | ⟨e, hrun, ho⟩⟩ := ht.run hs
      · simp only [hrun, ho]
        exact ⟨rfl, hs'⟩
      · simp only [hrun]
        by_cases hagain : again e
        · rw [if_pos hagain]
          exact ih s' hs'
        · rw [if_neg hagain]
          exact ⟨ho, hs'⟩

end Yields

/-! ## Invariants -/

/-- From a state in `I` the coroutine ends in one, and its value, if any, is in `Q`. -/
def Keeps (I : σ → Prop) (t : Coro σ ε α) (Q : α → Prop) : Prop :=
  ∀ s, I s → I (t s).2 ∧ ∀ a, (t s).1 = .value a → Q a

namespace Keeps

variable {I : σ → Prop} {t : Coro σ ε α} {Q : α → Prop} {R : β → Prop}

/-- The three ways for a coroutine to end. -/
theorem run (h : Keeps I t Q) {s : σ} (hs : I s) :
    ∃ s', I s' ∧ ((∃ a, t s = (.value a, s') ∧ Q a)
      ∨ (∃ e, t s = (.exception e, s')) ∨ t s = (.stuck, s')) := by
  obtain ⟨hs', hr⟩ := h s hs
  generalize t s = r at hr hs'
  match r with
  | (.value a, s') => exact ⟨s', hs', .inl ⟨a, rfl, hr a rfl⟩⟩
  | (.exception e, s') => exact ⟨s', hs', .inr (.inl ⟨e, rfl⟩)⟩
  | (.stuck, s') => exact ⟨s', hs', .inr (.inr rfl)⟩

theorem of_value {s s' : σ} (a : α) (hrun : t s = (.value a, s')) (hs' : I s') (ha : Q a) :
    I (t s).2 ∧ ∀ b, (t s).1 = .value b → Q b := by
  rw [hrun]
  refine ⟨hs', fun b hb => ?_⟩
  cases hb
  exact ha

theorem of_exception {s s' : σ} (e : ε) (hrun : t s = (.exception e, s')) (hs' : I s') :
    I (t s).2 ∧ ∀ b, (t s).1 = .value b → Q b := by
  rw [hrun]
  exact ⟨hs', fun b hb => by cases hb⟩

theorem of_stuck {s s' : σ} (hrun : t s = (.stuck, s')) (hs' : I s') :
    I (t s).2 ∧ ∀ b, (t s).1 = .value b → Q b := by
  rw [hrun]
  exact ⟨hs', fun b hb => by cases hb⟩

theorem mono (h : Keeps I t Q) {Q' : α → Prop} (hQ : ∀ a, Q a → Q' a) : Keeps I t Q' :=
  fun s hs => ⟨(h s hs).1, fun a ha => hQ a ((h s hs).2 a ha)⟩

theorem pure {a : α} (ha : Q a) : Keeps I (Pure.pure a : Coro σ ε α) Q :=
  fun _ hs => of_value a rfl hs ha

theorem ofExcept {r : Except ε α} (hr : ∀ a, r = .ok a → Q a) :
    Keeps I (Coro.ofExcept r : Coro σ ε α) Q := by
  intro s hs
  cases r with
  | error e => exact of_exception e rfl hs
  | ok a => exact of_value a rfl hs (hr a rfl)

theorem bind (ht : Keeps I t Q) {f : α → Coro σ ε β} (hf : ∀ a, Q a → Keeps I (f a) R) :
    Keeps I (t >>= f) R := by
  intro s hs
  obtain ⟨s', hs', ⟨a, hrun, ha⟩ | ⟨e, hrun⟩ | hrun⟩ := ht.run hs
  · rw [bind_of_value hrun]
    exact hf a ha s' hs'
  · exact of_exception e (bind_of_exception hrun f) hs'
  · exact of_stuck (by simp only [Bind.bind, hrun]) hs'

theorem whenBoth (ht : Keeps I t Q) {u : Coro σ ε β} (hu : Keeps I u R) :
    Keeps I (t.whenBoth u) fun x => Q x.1 ∧ R x.2 := by
  intro s hs
  obtain ⟨s', hs', ⟨a, hrun, ha⟩ | ⟨e, hrun⟩ | hrun⟩ := ht.run hs
  · obtain ⟨s'', hs'', ⟨b, hrun', hb⟩ | ⟨e, hrun'⟩ | hrun'⟩ := hu.run hs'
    · exact of_value (a, b) (by simp only [Coro.whenBoth, hrun, hrun']) hs'' ⟨ha, hb⟩
    · exact of_exception e (by simp only [Coro.whenBoth, hrun, hrun']) hs''
    · exact of_stuck (by simp only [Coro.whenBoth, hrun, hrun']) hs''
  · obtain ⟨s'', hs'', ⟨b, hrun', hb⟩ | ⟨e', hrun'⟩ | hrun'⟩ := hu.run hs'
    · exact of_exception e (by simp only [Coro.whenBoth, hrun, hrun']) hs''
    · exact of_exception e (by simp only [Coro.whenBoth, hrun, hrun']) hs''
    · exact of_stuck (by simp only [Coro.whenBoth, hrun, hrun']) hs''
  · exact of_stuck (by simp only [Coro.whenBoth, hrun]) hs'

theorem retry (ht : Keeps I t Q) (again : ε → Bool) (n : ℕ) : Keeps I (t.retry again n) Q := by
  induction n with
  | zero => exact ht
  | succ n ih =>
      intro s hs
      obtain ⟨s', hs', ⟨a, hrun, ha⟩ | ⟨e, hrun⟩ | hrun⟩ := ht.run hs
      · exact of_value a (by simp only [Coro.retry, hrun]) hs' ha
      · by_cases hagain : again e
        · have hretry : t.retry again (n + 1) s = t.retry again n s' := by
            simp only [Coro.retry, hrun, if_pos hagain]
          rw [hretry]
          exact ih s' hs'
        · exact of_exception e (by simp only [Coro.retry, hrun, if_neg hagain]) hs'
      · exact of_stuck (by simp only [Coro.retry, hrun]) hs'

end Keeps

/-! ## Total correctness -/

/-- From a state in `I` the coroutine ends with a value and a state in `J`. -/
def Returns (I : σ → Prop) (t : Coro σ ε α) (J : α → σ → Prop) : Prop :=
  ∀ s, I s → ∃ a s', t s = (.value a, s') ∧ J a s'

namespace Returns

variable {I : σ → Prop} {t : Coro σ ε α} {J : α → σ → Prop}

theorem pure {a : α} (h : ∀ s, I s → J a s) : Returns I (Pure.pure a : Coro σ ε α) J :=
  fun s hs => ⟨a, s, rfl, h s hs⟩

theorem bind (ht : Returns I t J) {f : α → Coro σ ε β} {L : β → σ → Prop}
    (hf : ∀ a, Returns (J a) (f a) L) : Returns I (t >>= f) L := by
  intro s hs
  obtain ⟨a, s', hrun, hs'⟩ := ht s hs
  obtain ⟨b, s'', hrun', hs''⟩ := hf a s' hs'
  exact ⟨b, s'', (bind_of_value hrun f).trans hrun', hs''⟩

theorem whenBoth (ht : Returns I t J) {u : Coro σ ε β} {L : α → β → σ → Prop}
    (hu : ∀ a, Returns (J a) u (L a)) : Returns I (t.whenBoth u) fun x => L x.1 x.2 := by
  intro s hs
  obtain ⟨a, s', hrun, hs'⟩ := ht s hs
  obtain ⟨b, s'', hrun', hs''⟩ := hu a s' hs'
  refine ⟨(a, b), s'', ?_, hs''⟩
  simp only [Coro.whenBoth, hrun, hrun']

theorem retry (ht : Returns I t J) (again : ε → Bool) (n : ℕ) :
    Returns I (t.retry again n) J := by
  cases n with
  | zero => exact ht
  | succ n =>
      intro s hs
      obtain ⟨a, s', hrun, hs'⟩ := ht s hs
      refine ⟨a, s', ?_, hs'⟩
      simp only [Coro.retry, hrun]

end Returns
end Coro
