import Mathlib.Data.List.Basic
import Mathlib.Data.List.Forall2

/-!
# Encoders whose outputs can be told apart in a concatenation

An encoder writes a value as a list of symbols, and a record is written by
concatenating the outputs for its fields with nothing in between.  Whether the
record can be read back depends on each field's encoder:

* a *self-delimiting* encoder can be told from anything that follows it;
* an *end-delimited* encoder can be told only when the length of what follows it
  is known.

Equality of values is a relation `R` rather than `=`, since a program's own
equality may be coarser than equality of representations.
-/

namespace PrefixCode

variable {α β : Type*}

/-- Outputs of `enc` on `P` can be cut off the front of any stream. -/
def SelfDelimiting (enc : α → List β) (P : α → Prop) (R : α → α → Prop) : Prop :=
  ∀ ⦃x y⦄, P x → P y → ∀ ⦃r r'⦄, enc x ++ r = enc y ++ r' → R x y ∧ r = r'

/-- Outputs of `enc` on `P` can be cut off the front of a stream once the length
of the remainder is known. -/
def EndDelimited (enc : α → List β) (P : α → Prop) (R : α → α → Prop) : Prop :=
  ∀ ⦃x y⦄, P x → P y → ∀ ⦃r r'⦄, r.length = r'.length →
    enc x ++ r = enc y ++ r' → R x y ∧ r = r'

/-- Equal outputs come from related values. -/
def Separates (enc : α → List β) (P : α → Prop) (R : α → α → Prop) : Prop :=
  ∀ ⦃x y⦄, P x → P y → enc x = enc y → R x y

variable {enc : α → List β} {P : α → Prop} {R : α → α → Prop}

theorem Separates.endDelimited (h : Separates enc P R) : EndDelimited enc P R := by
  intro x y hx hy r r' hlen he
  obtain ⟨hxy, hr⟩ := List.append_inj' he hlen
  exact ⟨h hx hy hxy, hr⟩

/-- Outputs of one fixed length delimit themselves. -/
theorem Separates.selfDelimiting (h : Separates enc P R) {n : ℕ}
    (hlen : ∀ x, P x → (enc x).length = n) : SelfDelimiting enc P R := by
  intro x y hx hy r r' he
  obtain ⟨hxy, hr⟩ := List.append_inj he (by rw [hlen x hx, hlen y hy])
  exact ⟨h hx hy hxy, hr⟩

/-- A concatenation of self-delimiting outputs, once their number is known. -/
theorem SelfDelimiting.flatMap (h : SelfDelimiting enc P R) :
    ∀ {xs ys : List α}, (∀ x ∈ xs, P x) → (∀ y ∈ ys, P y) → xs.length = ys.length →
      ∀ {r r' : List β}, xs.flatMap enc ++ r = ys.flatMap enc ++ r' →
        List.Forall₂ R xs ys ∧ r = r' := by
  intro xs
  induction xs with
  | nil =>
      intro ys _ _ hlen r r' he
      obtain rfl : ys = [] := List.length_eq_zero_iff.mp hlen.symm
      exact ⟨.nil, by simpa using he⟩
  | cons x xs ih =>
      intro ys hx hy hlen r r' he
      cases ys with
      | nil => simp at hlen
      | cons y ys =>
          simp only [List.flatMap_cons, List.append_assoc] at he
          obtain ⟨hxy, he⟩ := h (hx x (by simp)) (hy y (by simp)) he
          obtain ⟨hxs, hr⟩ := ih (fun z hz => hx z (by simp [hz]))
            (fun z hz => hy z (by simp [hz])) (by simpa using hlen) he
          exact ⟨.cons hxy hxs, hr⟩

/-- A count written by a self-delimiting encoder makes a whole list self-delimiting. -/
theorem SelfDelimiting.counted (h : SelfDelimiting enc P R) {count : ℕ → List β} {Q : ℕ → Prop}
    (hc : SelfDelimiting count Q Eq) :
    SelfDelimiting (fun xs : List α => count xs.length ++ xs.flatMap enc)
      (fun xs => Q xs.length ∧ ∀ x ∈ xs, P x) (List.Forall₂ R) := by
  intro xs ys hx hy r r' he
  simp only [List.append_assoc] at he
  obtain ⟨hlen, he⟩ := hc hx.1 hy.1 he
  exact h.flatMap hx.2 hy.2 hlen he

end PrefixCode
