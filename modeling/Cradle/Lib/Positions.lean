import Mathlib.Data.List.Basic
import Mathlib.Tactic.TypeStar

/-!
# Positions in trees

A position is the list of indices on the way down from the root.  Trees are of any type with
a list of `kids` for each of them.
-/

namespace Positions

variable {τ τ' : Type*}

/-- The subtree at a position. -/
def sub (kids : τ → List τ) (t : τ) : List ℕ → Option τ
  | [] => some t
  | i :: p => (kids t)[i]?.bind fun s => sub kids s p

variable {kids : τ → List τ}

@[simp] theorem sub_nil (t : τ) : sub kids t [] = some t := rfl

theorem sub_append (t : τ) (p q : List ℕ) :
    sub kids t (p ++ q) = (sub kids t p).bind fun s => sub kids s q := by
  induction p generalizing t with
  | nil => rfl
  | cons i p ih =>
      simp only [List.cons_append, sub, Option.bind_assoc]
      congr 1
      funext s
      exact ih s

/-- The subtree one step further down. -/
theorem sub_concat {t s : τ} {p : List ℕ} (h : sub kids t p = some s) (i : ℕ) :
    sub kids t (p ++ [i]) = (kids s)[i]? := by
  rw [sub_append, h]
  simp only [Option.bind_some, sub]
  exact Option.bind_fun_some _

/-- Trees of the same shape are walked in parallel. -/
theorem sub_map {kids' : τ' → List τ'} {f : τ → τ'} (h : ∀ t, kids' (f t) = (kids t).map f)
    (t : τ) (p : List ℕ) : sub kids' (f t) p = (sub kids t p).map f := by
  induction p generalizing t with
  | nil => rfl
  | cons i p ih =>
      simp only [sub, h, List.getElem?_map]
      cases (kids t)[i]? with
      | none => rfl
      | some s => exact ih s

end Positions
