import Cradle.Lib.PrefixCode
import Mathlib.Data.List.Basic

/-!
# Decoders that take their input off the front

A decoder reads symbols from the front of a list and leaves the rest, or fails.  It
*reads back* an output when, whatever follows that output, it yields the value that was
written and leaves exactly what follows.  The rules here build that up along the way a
decoder is put together, and connect it to the encoders that can be told apart in a
concatenation.
-/

namespace Except

variable {ε α β : Type*} {x : Except ε α} {b : β}

theorem bind_eq_ok {f : α → Except ε β} : x.bind f = .ok b ↔ ∃ a, x = .ok a ∧ f a = .ok b := by
  cases x <;> simp [Except.bind]

theorem map_eq_ok {f : α → β} : x.map f = .ok b ↔ ∃ a, x = .ok a ∧ f a = b := by
  cases x <;> simp [Except.map]

end Except

/-- A decoder of values of type `α` from symbols of type `β`. -/
abbrev Decoder (ε β α : Type) := StateT (List β) (Except ε) α

namespace Decoder

variable {ε β α γ : Type}

/-- Take `n` symbols, or fail with `e` when there are not as many. -/
def take (e : ε) (n : ℕ) : Decoder ε β (List β) := fun bs =>
  if n ≤ bs.length then .ok (bs.take n, bs.drop n) else .error e

/-- Run a decoder a number of times. -/
def times (d : Decoder ε β α) : ℕ → Decoder ε β (List α)
  | 0 => pure []
  | n + 1 => do
      let x ← d
      let xs ← times d n
      pure (x :: xs)

/-- Whatever follows `out`, the decoder yields `x` and leaves what follows. -/
def ReadsBack (d : Decoder ε β α) (out : List β) (x : α) : Prop :=
  ∀ rest, d.run (out ++ rest) = .ok (x, rest)

namespace ReadsBack

variable {d : Decoder ε β α} {f : α → Decoder ε β γ} {out out' : List β} {x : α} {y : γ}

theorem pure (x : α) : ReadsBack (Pure.pure x : Decoder ε β α) [] x := fun _ => rfl

theorem bind (hd : ReadsBack d out x) (hf : ReadsBack (f x) out' y) :
    ReadsBack (d >>= f) (out ++ out') y := by
  intro rest
  rw [StateT.run_bind, List.append_assoc, hd]
  exact hf rest

/-- A last step that reads nothing. -/
theorem map (hd : ReadsBack d out x) (g : α → γ) :
    ReadsBack (d >>= fun a => Pure.pure (g a)) out (g x) := by
  intro rest
  rw [StateT.run_bind, hd]
  rfl

/-- A step that does not look at the input. -/
theorem lift {r : Except ε α} (h : r = .ok x) :
    ReadsBack (liftM r : Decoder ε β α) [] x := by
  intro rest
  subst h
  rfl

theorem bind_lift {g : α → Except ε γ} (hd : ReadsBack d out x) (h : g x = .ok y) :
    ReadsBack (d >>= fun a => liftM (g a)) out y := by
  intro rest
  rw [StateT.run_bind, hd]
  exact lift h rest

/-- Exactly the output is read to the end. -/
theorem run_eq (hd : ReadsBack d out x) : d.run out = .ok (x, []) := by
  have h := hd []
  rwa [List.append_nil] at h

theorem take (e : ε) {n : ℕ} (h : out.length = n) : ReadsBack (take e n) out out := by
  intro rest
  subst h
  simp [Decoder.take, StateT.run]

/-- A list is read back item by item. -/
theorem times {outs : List (List β)} {xs : List α}
    (h : List.Forall₂ (ReadsBack d) outs xs) : ReadsBack (times d xs.length) outs.flatten xs := by
  induction h with
  | nil => exact ReadsBack.pure []
  | cons hd _ ih =>
      rw [List.flatten_cons]
      exact hd.bind (ih.map _)

end ReadsBack

/-! ## What a decoder accepts -/

/-- Of any input that the decoder accepts, it takes a string of `L` off the front. -/
def AcceptsOnly (d : Decoder ε β α) (L : α → List β → Prop) : Prop :=
  ∀ ⦃bs x rest⦄, d.run bs = .ok (x, rest) → ∃ out, bs = out ++ rest ∧ L x out

theorem run_bind_eq_ok {d : Decoder ε β α} {f : α → Decoder ε β γ} {bs rest : List β} {y : γ} :
    (d >>= f).run bs = .ok (y, rest) ↔
      ∃ x mid, d.run bs = .ok (x, mid) ∧ (f x).run mid = .ok (y, rest) := by
  rw [StateT.run_bind]
  refine Except.bind_eq_ok.trans ⟨?_, ?_⟩
  · rintro ⟨⟨x, mid⟩, hd, hf⟩
    exact ⟨x, mid, hd, hf⟩
  · rintro ⟨x, mid, hd, hf⟩
    exact ⟨(x, mid), hd, hf⟩

namespace AcceptsOnly

variable {d : Decoder ε β α} {f : α → Decoder ε β γ} {L L' : α → List β → Prop}
  {M : γ → List β → Prop}

theorem mono (hd : AcceptsOnly d L) (h : ∀ x out, L x out → L' x out) : AcceptsOnly d L' := by
  intro bs x rest hrun
  obtain ⟨out, hbs, hout⟩ := hd hrun
  exact ⟨out, hbs, h x out hout⟩

theorem pure {x : α} (h : L x []) : AcceptsOnly (Pure.pure x : Decoder ε β α) L := by
  intro bs y rest hrun
  cases hrun
  exact ⟨[], rfl, h⟩

theorem throw {e : ε} : AcceptsOnly (MonadExcept.throw e : Decoder ε β α) L := by
  intro bs x rest hrun
  cases hrun

theorem bind (hd : AcceptsOnly d L)
    (hf : ∀ x out, L x out → AcceptsOnly (f x) fun y out' => M y (out ++ out')) :
    AcceptsOnly (d >>= f) M := by
  intro bs y rest hrun
  obtain ⟨x, mid, hx, hy⟩ := run_bind_eq_ok.mp hrun
  obtain ⟨out, rfl, hout⟩ := hd hx
  obtain ⟨out', rfl, hout'⟩ := hf x out hout hy
  exact ⟨out ++ out', (List.append_assoc out out' rest).symm, hout'⟩

/-- A last step that reads nothing. -/
theorem map {g : α → γ} (hd : AcceptsOnly d L) (h : ∀ x out, L x out → M (g x) out) :
    AcceptsOnly (d >>= fun x => Pure.pure (g x)) M := by
  refine hd.bind fun x out hout => pure ?_
  rw [List.append_nil]
  exact h x out hout

/-- A step that does not look at the input. -/
theorem lift (r : Except ε α) :
    AcceptsOnly (liftM r : Decoder ε β α) fun x out => r = .ok x ∧ out = [] := by
  intro bs x rest hrun
  cases r with
  | error e => cases hrun
  | ok y =>
      cases hrun
      exact ⟨[], rfl, rfl, rfl⟩

/-- A case distinction. -/
theorem ite {p : Prop} [Decidable p] {d' : Decoder ε β α} (hd : p → AcceptsOnly d L)
    (hd' : ¬ p → AcceptsOnly d' L) : AcceptsOnly (if p then d else d') L := by
  split
  case isTrue h => exact hd h
  case isFalse h => exact hd' h

theorem take (e : ε) (n : ℕ) :
    AcceptsOnly (take e n : Decoder ε β (List β)) fun x out => x = out ∧ out.length = n := by
  intro bs x rest hrun
  by_cases h : n ≤ bs.length
  · have htake : (Except.ok (bs.take n, bs.drop n) : Except ε _) = Except.ok (x, rest) := by
      rw [← hrun]
      simp [Decoder.take, StateT.run, h]
    cases htake
    exact ⟨bs.take n, (List.take_append_drop n bs).symm, rfl, List.length_take_of_le h⟩
  · have hfail : Except.error e = Except.ok (x, rest) := by
      rw [← hrun]
      simp [Decoder.take, StateT.run, h]
    cases hfail

/-- A list is made of the strings of its items. -/
theorem times (hd : AcceptsOnly d L) (n : ℕ) :
    AcceptsOnly (times d n) fun xs out =>
      ∃ outs, List.Forall₂ L xs outs ∧ outs.flatten = out ∧ xs.length = n := by
  induction n with
  | zero => exact pure ⟨[], .nil, rfl, rfl⟩
  | succ n ih =>
      refine hd.bind fun x out hout => ih.map ?_
      rintro xs _ ⟨outs, houts, rfl, hlen⟩
      exact ⟨out :: outs, .cons hout houts, rfl, by rw [List.length_cons, hlen]⟩

end AcceptsOnly

/-! ## Decoders that agree on short inputs -/

/-- The two decoders do the same on inputs of at most `n` symbols. -/
def AgreeUpTo (n : ℕ) (d d' : Decoder ε β α) : Prop := ∀ bs, bs.length ≤ n → d.run bs = d'.run bs

namespace AgreeUpTo

variable {n : ℕ} {d d' : Decoder ε β α} {f f' : α → Decoder ε β γ} {L : α → List β → Prop}

theorem refl (d : Decoder ε β α) : AgreeUpTo n d d := fun _ _ => rfl

/-- The second step sees what the first one left. -/
theorem bind (hd : AgreeUpTo n d d') (hleft : AcceptsOnly d L)
    (hf : ∀ x, AgreeUpTo n (f x) (f' x)) : AgreeUpTo n (d >>= f) (d' >>= f') := by
  intro bs hbs
  rw [StateT.run_bind, StateT.run_bind, ← hd bs hbs]
  cases hrun : d.run bs with
  | error e => rfl
  | ok r =>
      obtain ⟨out, rfl, -⟩ := @hleft bs r.1 r.2 hrun
      rw [List.length_append] at hbs
      exact hf r.1 r.2 (by omega)

theorem times (hd : AgreeUpTo n d d') (hleft : AcceptsOnly d L) (k : ℕ) :
    AgreeUpTo n (times d k) (times d' k) := by
  induction k with
  | zero => exact refl _
  | succ k ih => exact hd.bind hleft fun x => ih.bind (hleft.times k) fun xs => refl _

end AgreeUpTo

end Decoder

namespace PrefixCode

variable {ε α β γ : Type} {enc : α → List β} {P : α → Prop} {R : α → α → Prop}

/-- What is read back by one decoder can be told from anything that follows it. -/
theorem SelfDelimiting.of_readsBack {d : Decoder ε β γ} {value : α → γ}
    (h : ∀ x, P x → d.ReadsBack (enc x) (value x)) :
    SelfDelimiting enc P fun x y => value x = value y := by
  intro x y hx hy r r' he
  have hread := (h x hx r).symm.trans ((congrArg d.run he).trans (h y hy r'))
  simp only [Except.ok.injEq, Prod.mk.injEq] at hread
  exact hread

/-- Lists of different lengths are told apart too when no output is empty. -/
theorem SelfDelimiting.flatMap_separates (h : SelfDelimiting enc P R)
    (hne : ∀ x, P x → enc x ≠ []) :
    Separates (fun xs : List α => xs.flatMap enc) (fun xs => ∀ x ∈ xs, P x) (List.Forall₂ R) := by
  intro xs
  induction xs with
  | nil =>
      intro ys _ hys he
      cases ys with
      | nil => exact .nil
      | cons y ys =>
          simp only [List.flatMap_nil, List.flatMap_cons] at he
          exact absurd (List.append_eq_nil_iff.mp he.symm).1 (hne y (hys y (by simp)))
  | cons x xs ih =>
      intro ys hxs hys he
      cases ys with
      | nil =>
          simp only [List.flatMap_nil, List.flatMap_cons] at he
          exact absurd (List.append_eq_nil_iff.mp he).1 (hne x (hxs x (by simp)))
      | cons y ys =>
          simp only [List.flatMap_cons] at he
          obtain ⟨hxy, he⟩ := h (hxs x (by simp)) (hys y (by simp)) he
          have hrest := ih (fun z hz => hxs z (by simp [hz])) (fun z hz => hys z (by simp [hz])) he
          exact .cons hxy hrest

end PrefixCode
