import Mathlib.Data.List.Infix

/-!
# Occurrences of a pattern in a list

Finding the first occurrence of a pattern, and taking out one occurrence after the other until
none is left.  A pattern that starts with a symbol it has nowhere else does not overlap with
itself.
-/

namespace Occurrence

variable {α : Type*} [DecidableEq α] {pattern xs ys : List α} {c : α}

/-- The position of the first occurrence. -/
def find (pattern : List α) : List α → Option ℕ
  | [] => if pattern = [] then some 0 else none
  | x :: xs => if pattern <+: x :: xs then some 0 else (find pattern xs).map (· + 1)

theorem find_eq_none : find pattern xs = none ↔ ¬ pattern <:+: xs := by
  induction xs with
  | nil =>
      rw [find, List.infix_nil]
      split <;> simp_all
  | cons x xs ih =>
      rw [find, List.infix_cons_iff]
      split
      case isTrue h => simp [h]
      case isFalse h => simp [h, ih]

/-- What is before the occurrence, and what is after it. -/
theorem append_of_find {n : ℕ} (h : find pattern xs = some n) :
    xs.take n ++ pattern ++ xs.drop (n + pattern.length) = xs := by
  induction xs generalizing n with
  | nil =>
      rw [find] at h
      split at h <;> simp_all
  | cons x xs ih =>
      rw [find] at h
      split at h
      case isTrue hprefix =>
          cases h
          obtain ⟨rest, hrest⟩ := hprefix
          rw [← hrest]
          simp
      case isFalse =>
          obtain ⟨m, hm, rfl⟩ := Option.map_eq_some_iff.mp h
          rw [List.take_succ_cons, Nat.add_right_comm, List.drop_succ_cons, List.cons_append,
            List.cons_append, ih hm]

/-- Take out the first occurrence, and again, as often as `fuel` says. -/
def removeAll (pattern : List α) : ℕ → List α → List α
  | 0, xs => xs
  | fuel + 1, xs =>
      match find pattern xs with
      | none => xs
      | some n => removeAll pattern fuel (xs.take n ++ xs.drop (n + pattern.length))

theorem removeAll_of_not_infix {fuel : ℕ} (h : ¬ pattern <:+: xs) :
    removeAll pattern fuel xs = xs := by
  cases fuel with
  | zero => rfl
  | succ fuel => rw [removeAll, find_eq_none.mpr h]

/-- Each round makes the list shorter, so as many rounds as it is long are enough. -/
theorem not_infix_removeAll {fuel : ℕ} (hpattern : pattern ≠ []) (h : xs.length ≤ fuel) :
    ¬ pattern <:+: removeAll pattern fuel xs := by
  have hpos : 0 < pattern.length := List.length_pos_iff.mpr hpattern
  induction fuel generalizing xs with
  | zero =>
      rw [removeAll, List.length_eq_zero_iff.mp (Nat.le_zero.mp h), List.infix_nil]
      exact hpattern
  | succ fuel ih =>
      rw [removeAll]
      cases hfind : find pattern xs with
      | none => exact find_eq_none.mp hfind
      | some n =>
          refine ih ?_
          have hlength := congrArg List.length (append_of_find hfind)
          simp only [List.length_append] at hlength ⊢
          omega

/-! ## Patterns that do not overlap -/

omit [DecidableEq α] in
/-- An occurrence does not go across a symbol that is not in the pattern. -/
theorem infix_append_cons (hc : c ∉ pattern) :
    pattern <:+: xs ++ c :: ys ↔ pattern <:+: xs ∨ pattern <:+: ys := by
  constructor
  · rintro ⟨before, after, h⟩
    rcases List.append_eq_append_iff.mp h with ⟨rest, hxs, -⟩ | ⟨rest, hbefore, hys⟩
    · exact .inl ⟨before, rest, hxs.symm⟩
    · cases rest with
      | nil =>
          rw [List.append_nil] at hbefore
          exact .inl ⟨before, [], by rw [hbefore, List.append_nil]⟩
      | cons d rest =>
          cases hys
          rcases List.append_eq_append_iff.mp hbefore with ⟨inner, -, hpattern⟩ | ⟨inner, -, hrest⟩
          · exact absurd (by simp [hpattern]) hc
          · cases inner with
            | nil =>
                have hpattern : c :: rest = pattern := hrest
                rw [← hpattern] at hc
                exact absurd List.mem_cons_self hc
            | cons d inner =>
                cases hrest
                exact .inr ⟨inner, after, rfl⟩
  · rintro (h | h)
    · exact h.trans ⟨[], c :: ys, rfl⟩
    · exact h.trans ⟨xs ++ [c], [], by simp⟩

theorem find_append_self (hc : c ∉ pattern) (h : ¬ c :: pattern <:+: xs) :
    find (c :: pattern) (xs ++ c :: pattern) = some xs.length := by
  induction xs with
  | nil => rw [List.nil_append, find, if_pos (List.prefix_refl _)]; rfl
  | cons x xs ih =>
      rw [List.infix_cons_iff, not_or] at h
      have hprefix : ¬ c :: pattern <+: x :: (xs ++ c :: pattern) := by
        rintro ⟨after, hafter⟩
        rw [← List.cons_append] at hafter
        rcases List.append_eq_append_iff.mp hafter with ⟨rest, hxs, -⟩ | ⟨rest, hxs, hrest⟩
        · exact h.1 ⟨rest, hxs.symm⟩
        · cases rest with
          | nil => exact h.1 ⟨[], by rw [hxs, List.append_nil, List.append_nil]⟩
          | cons d rest =>
              obtain rfl : c = d := (List.cons.inj hrest).1
              have hpattern : pattern = xs ++ c :: rest := (List.cons.inj hxs).2
              exact hc (by simp [hpattern])
      rw [List.cons_append, find, if_neg hprefix, ih h.2]
      rfl

end Occurrence
