import Cradle.Typing.DiffCompute
import Cradle.Typing.DiffSafety
import Mathlib.Data.Nat.Find

/-!
# The bounds of `detect_insertion`

The three loops of `detect_insertion` go by index, and each of them ends at an index that it
compares for equality only.  An offset at which one item matches need not leave room for the rest
of the shorter array: then the last loop comes to the end of the longer array first.
-/

open Cradle.Dynamic

namespace Cradle
namespace Indexed

theorem lt_of_vectorAt {array : List Dynamic} {index : ℕ} {item : Dynamic}
    (h : vectorAt array index = .ok item) : index < array.length := by
  rw [vectorAt] at h
  split at h
  · rename_i hitem
    exact (List.getElem?_eq_some_iff.mp hitem).1
  · cases h

/-- The scan of `detect_insertion` for an item of `b` that matches `a[i]`, from an offset on. -/
def scan (a b : List Dynamic) (i offset : ℕ) : Except DiffFault (Option ℕ) :=
  if i + offset = b.length then .ok none
  else do
    let x ← vectorAt a i
    match h : vectorAt b (i + offset) with
    | .error fault => .error fault
    | .ok y => if x.equals y then return some offset else scan a b i (offset + 1)
termination_by b.length - (i + offset)
decreasing_by
  have hlt := lt_of_vectorAt h
  omega

/-- The check of `detect_insertion` that the remaining items match, from index `j` on. -/
def matchRest (a b : List Dynamic) (offset j : ℕ) : Except DiffFault Bool :=
  if j = a.length then .ok true
  else
    match h : vectorAt a j with
    | .error fault => .error fault
    | .ok x => do
        let y ← vectorAt b (j + offset)
        if x.equals y then matchRest a b offset (j + 1) else return false
termination_by a.length - j
decreasing_by
  have hlt := lt_of_vectorAt h
  omega

/-- The loop of `detect_insertion` that looks for a mismatch, from index `i` on. -/
def detectFrom (a b : List Dynamic) (i : ℕ) : Except DiffFault (Option InsertionDescription) :=
  if i = a.length then .ok (some ⟨a.length, b.length - a.length⟩)
  else
    match _h : vectorAt a i with
    | .error fault => .error fault
    | .ok x => do
        let y ← vectorAt b i
        if x.equals y then detectFrom a b (i + 1)
        else
          match ← scan a b i 1 with
          | none => return none
          | some offset =>
              if ← matchRest a b offset i then return some ⟨i, offset⟩ else return none
termination_by a.length - i
decreasing_by
  have hlt := lt_of_vectorAt ‹_›
  omega

/-- `detect_insertion`. -/
def detectInsertion (a b : List Dynamic) : Except DiffFault (Option InsertionDescription) :=
  detectFrom a b 0

variable {a b : List Dynamic} {i j d offset : ℕ} {x y : Dynamic}

theorem vectorAt_eq (h : a[i]? = some x) : vectorAt a i = .ok x := by
  rw [vectorAt, h]

/-! ## One round of each loop -/

theorem scan_end (h : i + offset = b.length) : scan a b i offset = .ok none := by
  rw [scan, if_pos h]

theorem scan_next (hx : a[i]? = some x) (hy : b[i + offset]? = some y) :
    scan a b i offset = if x.equals y then .ok (some offset) else scan a b i (offset + 1) := by
  have hlt := (List.getElem?_eq_some_iff.mp hy).1
  rw [scan, if_neg (by omega), vectorAt_eq hx, vectorAt_eq hy]
  rfl

theorem matchRest_end : matchRest a b offset a.length = .ok true := by
  rw [matchRest, if_pos rfl]

theorem matchRest_next (hx : a[j]? = some x) :
    matchRest a b offset j = (do
      let y ← vectorAt b (j + offset)
      if x.equals y then matchRest a b offset (j + 1) else return false) := by
  have hlt := (List.getElem?_eq_some_iff.mp hx).1
  rw [matchRest, if_neg (by omega), vectorAt_eq hx]

theorem detectFrom_end :
    detectFrom a b a.length = .ok (some ⟨a.length, b.length - a.length⟩) := by
  rw [detectFrom, if_pos rfl]

theorem detectFrom_next (hx : a[i]? = some x) :
    detectFrom a b i = (do
      let y ← vectorAt b i
      if x.equals y then detectFrom a b (i + 1)
      else
        match ← scan a b i 1 with
        | none => return none
        | some offset =>
            if ← matchRest a b offset i then return some ⟨i, offset⟩ else return none) := by
  have hlt := (List.getElem?_eq_some_iff.mp hx).1
  rw [detectFrom, if_neg (by omega), vectorAt_eq hx]

/-! ## What the loops do with what is left of the arrays -/

theorem scan_eq (hx : a[i]? = some x) (hle : i + offset ≤ b.length) :
    scan a b i offset =
      .ok (((b.drop (i + offset)).findIdx? (x.equals ·)).map (· + offset)) := by
  induction hn : b.length - (i + offset) generalizing offset with
  | zero =>
      have hend : i + offset = b.length := by omega
      rw [scan_end hend, hend, List.drop_length]
      rfl
  | succ n ih =>
      have hlt : i + offset < b.length := by omega
      rw [scan_next hx (List.getElem?_eq_getElem hlt), List.drop_eq_getElem_cons hlt,
        List.findIdx?_cons]
      split
      · rw [Option.map_some, Nat.zero_add]
      · rw [ih (by omega) (by omega), Option.map_map, Nat.add_assoc]
        congr 2
        funext k
        simp only [Function.comp_apply]
        omega

theorem matchRest_eq (hj : j ≤ a.length) :
    matchRest a b offset j = Cradle.matchRest (a.drop j) (b.drop (j + offset)) := by
  induction hn : a.length - j generalizing j with
  | zero =>
      have hend : j = a.length := by omega
      rw [hend, matchRest_end, List.drop_length, Cradle.matchRest]
  | succ n ih =>
      have hlt : j < a.length := by omega
      rw [matchRest_next (List.getElem?_eq_getElem hlt), List.drop_eq_getElem_cons hlt]
      by_cases hb : j + offset < b.length
      · rw [vectorAt_eq (List.getElem?_eq_getElem hb), ok_bind, List.drop_eq_getElem_cons hb,
          Cradle.matchRest, ih (by omega) (by omega), Nat.add_right_comm]
        rfl
      · have hout : b.length ≤ j + offset := by omega
        rw [List.drop_eq_nil_of_le hout, Cradle.matchRest, vectorAt, List.getElem?_eq_none hout]
        rfl

theorem detectFrom_eq (hi : i ≤ a.length) (hlen : a.length ≤ b.length) :
    detectFrom a b i = Cradle.detectFrom i (a.drop i) (b.drop i) := by
  induction hn : a.length - i generalizing i with
  | zero =>
      have hend : i = a.length := by omega
      rw [hend, detectFrom_end, List.drop_length, Cradle.detectFrom, List.length_drop]
  | succ n ih =>
      have hlt : i < a.length := by omega
      have hlt' : i < b.length := by omega
      have hx := List.getElem?_eq_getElem hlt
      rw [detectFrom_next hx, vectorAt_eq (List.getElem?_eq_getElem hlt'), ok_bind,
        scan_eq hx (by omega), ok_bind]
      rw [List.drop_eq_getElem_cons hlt, List.drop_eq_getElem_cons hlt', Cradle.detectFrom,
        ih (by omega) (by omega)]
      split
      · rfl
      · cases hj : (b.drop (i + 1)).findIdx? (a[i].equals ·) with
        | none => rfl
        | some j =>
            simp only [Option.map_some]
            rw [matchRest_eq hi, List.drop_drop, List.drop_eq_getElem_cons hlt,
              Nat.add_comm j 1, Nat.add_assoc]

/-- By index `detect_insertion` finds what it finds item by item. -/
theorem detectInsertion_eq (hlen : a.length ≤ b.length) :
    detectInsertion a b = Cradle.detectInsertion a b :=
  detectFrom_eq (Nat.zero_le _) hlen

/-! ## The arrays that are searched to the end -/

/-- There are items at the two indices, and they are equal. -/
def Matches (a b : List Dynamic) (i j : ℕ) : Prop :=
  ∃ x ∈ a[i]?, ∃ y ∈ b[j]?, x.equals y = true

structure FirstMismatch (a b : List Dynamic) (i : ℕ) : Prop where
  lt : i < a.length
  mismatch : ¬ Matches a b i i
  before : ∀ k < i, Matches a b k k

structure FirstOffset (a b : List Dynamic) (i d : ℕ) : Prop where
  pos : 0 < d
  here : Matches a b i (i + d)
  before : ∀ e, 0 < e → e < d → ¬ Matches a b i (i + e)

/-- The first offset at which the item that mismatches is found leaves too little room for the
items of `a`, and all of them that have a counterpart match it. -/
def RunsOut (a b : List Dynamic) : Prop :=
  ∃ i d, FirstMismatch a b i ∧ FirstOffset a b i d ∧ b.length < a.length + d ∧
    ∀ j, i ≤ j → j + d < b.length → Matches a b j (j + d)

theorem FirstMismatch.unique (h : FirstMismatch a b i) (h' : FirstMismatch a b j) : i = j := by
  rcases Nat.lt_trichotomy i j with hlt | heq | hlt
  · exact absurd (h'.before i hlt) h.mismatch
  · exact heq
  · exact absurd (h.before j hlt) h'.mismatch

theorem FirstOffset.unique (h : FirstOffset a b i d) (h' : FirstOffset a b i j) : d = j := by
  rcases Nat.lt_trichotomy d j with hlt | heq | hlt
  · exact absurd h.here (h'.before d h.pos hlt)
  · exact heq
  · exact absurd h'.here (h.before j h'.pos hlt)

theorem matches_iff (hx : a[i]? = some x) (hy : b[j]? = some y) :
    Matches a b i j ↔ x.equals y = true := by
  simp [Matches, hx, hy]

/-- The scan finds the first offset. -/
theorem scan_of_firstOffset (h : FirstOffset a b i d) : scan a b i 1 = .ok (some d) := by
  obtain ⟨x, hx, y, hy, hxy⟩ := h.here
  have hlt := (List.getElem?_eq_some_iff.mp hy).1
  have hskip : ∀ e, 0 < e → e ≤ d → scan a b i 1 = scan a b i e := by
    intro e hpos
    induction e, hpos using Nat.le_induction with
    | base => exact fun _ => rfl
    | succ e hpos ih =>
        intro hle
        have hlt' : i + e < b.length := by omega
        have hnot := h.before e hpos hle
        rw [matches_iff hx (List.getElem?_eq_getElem hlt')] at hnot
        rw [ih (by omega), scan_next hx (List.getElem?_eq_getElem hlt'), if_neg hnot]
  rw [hskip d h.pos (Nat.le_refl d), scan_next hx hy, if_pos hxy]

theorem exists_firstMismatch (h : ¬ ∀ k < a.length, Matches a b k k) :
    ∃ i, FirstMismatch a b i := by
  classical
  have hsome : ∃ k, k < a.length ∧ ¬ Matches a b k k := by simpa using h
  obtain ⟨hlt, hmismatch⟩ := Nat.find_spec hsome
  refine ⟨Nat.find hsome, hlt, hmismatch, fun k hk => ?_⟩
  by_contra hnot
  exact Nat.find_min hsome hk ⟨by omega, hnot⟩

theorem exists_firstOffset (h : 0 < d) (hmatch : Matches a b i (i + d)) :
    ∃ e, FirstOffset a b i e := by
  classical
  have hsome : ∃ e, 0 < e ∧ Matches a b i (i + e) := ⟨d, h, hmatch⟩
  obtain ⟨hpos, hhere⟩ := Nat.find_spec hsome
  exact ⟨Nat.find hsome, hpos, hhere, fun e he hlt hmatch =>
    Nat.find_min hsome hlt ⟨he, hmatch⟩⟩

/-- The check of the rest stays within `b` if there is room for it, or if it ends early. -/
theorem matchRest_returns_iff (hj : j ≤ a.length) (hb : j + d ≤ b.length) :
    (∃ r, matchRest a b d j = .ok r) ↔
      ¬ (b.length < a.length + d ∧ ∀ k, j ≤ k → k + d < b.length → Matches a b k (k + d)) := by
  induction hn : a.length - j generalizing j with
  | zero =>
      have hend : j = a.length := by omega
      rw [hend, matchRest_end]
      refine iff_of_true ⟨true, rfl⟩ fun h => ?_
      omega
  | succ n ih =>
      have hlt : j < a.length := by omega
      have hx := List.getElem?_eq_getElem hlt
      rw [matchRest_next hx]
      by_cases hb' : j + d < b.length
      · have hy := List.getElem?_eq_getElem hb'
        rw [vectorAt_eq hy, ok_bind]
        by_cases hxy : a[j].equals b[j + d] = true
        · rw [if_pos hxy, ih (by omega) (by omega) (by omega)]
          refine not_congr (and_congr_right fun _ => ⟨fun h k hk hkb => ?_, fun h k hk => ?_⟩)
          · rcases Nat.eq_or_lt_of_le hk with rfl | hk
            · exact (matches_iff hx hy).mpr hxy
            · exact h k hk hkb
          · exact h k (by omega)
        · rw [if_neg hxy]
          refine iff_of_true ⟨false, rfl⟩ fun h => hxy ?_
          exact (matches_iff hx hy).mp (h.2 j (Nat.le_refl j) hb')
      · rw [vectorAt, List.getElem?_eq_none (by omega)]
        refine iff_of_false ?_ (not_not_intro ⟨by omega, ?_⟩)
        · rintro ⟨r, h⟩
          cases h
        · intro k hk hkb
          omega

/-- Up to the first mismatch the first loop goes on. -/
theorem detectFrom_skip (hall : ∀ k < i, Matches a b k k) :
    detectFrom a b 0 = detectFrom a b i := by
  induction i with
  | zero => rfl
  | succ i ih =>
      obtain ⟨x, hx, y, hy, hxy⟩ := hall i (Nat.lt_succ_self i)
      rw [ih fun k hk => hall k (by omega), detectFrom_next hx, vectorAt_eq hy, ok_bind,
        if_pos hxy]

theorem detectInsertion_returns_iff (hlen : a.length < b.length) :
    (∃ r, detectInsertion a b = .ok r) ↔ ¬ RunsOut a b := by
  by_cases hall : ∀ k < a.length, Matches a b k k
  · rw [detectInsertion, detectFrom_skip hall, detectFrom_end]
    refine iff_of_true ⟨_, rfl⟩ ?_
    rintro ⟨i, d, hi, -⟩
    exact hi.mismatch (hall i hi.lt)
  · obtain ⟨i, hfirst⟩ := exists_firstMismatch hall
    have hlt := hfirst.lt
    have hmismatch := hfirst.mismatch
    have hx := List.getElem?_eq_getElem hlt
    have hb : i < b.length := by omega
    have hy := List.getElem?_eq_getElem hb
    rw [matches_iff hx hy] at hmismatch
    rw [detectInsertion, detectFrom_skip hfirst.before, detectFrom_next hx, vectorAt_eq hy,
      ok_bind, if_neg hmismatch]
    by_cases hoffset : ∃ d, FirstOffset a b i d
    · obtain ⟨d, hd⟩ := hoffset
      obtain ⟨-, -, y, hy, -⟩ := hd.here
      have hroom := (List.getElem?_eq_some_iff.mp hy).1
      rw [scan_of_firstOffset hd, ok_bind]
      dsimp only
      have hruns : RunsOut a b ↔ b.length < a.length + d ∧
          ∀ j, i ≤ j → j + d < b.length → Matches a b j (j + d) := by
        constructor
        · rintro ⟨i', d', hi', hd', h⟩
          obtain rfl := hfirst.unique hi'
          obtain rfl := hd.unique hd'
          exact h
        · exact fun h => ⟨i, d, hfirst, hd, h⟩
      rw [hruns, ← matchRest_returns_iff (Nat.le_of_lt hlt) (Nat.le_of_lt hroom)]
      cases matchRest a b d i with
      | error fault => exact iff_of_false (fun ⟨r, h⟩ => nomatch h) fun ⟨r, h⟩ => nomatch h
      | ok found =>
          refine iff_of_true ?_ ⟨found, rfl⟩
          cases found
          · exact ⟨none, rfl⟩
          · exact ⟨some ⟨i, d⟩, rfl⟩
    · have hnone : scan a b i 1 = .ok none := by
        rw [scan_eq hx (by omega)]
        cases hj : (b.drop (i + 1)).findIdx? (a[i].equals ·) with
        | none => rfl
        | some j =>
            exfalso
            obtain ⟨hjlt, hjx, -⟩ := List.findIdx?_eq_some_iff_getElem.mp hj
            rw [List.length_drop] at hjlt
            rw [List.getElem_drop] at hjx
            apply hoffset
            have hbj : i + (j + 1) < b.length := by omega
            refine exists_firstOffset (Nat.succ_pos j)
              ((matches_iff hx (List.getElem?_eq_getElem hbj)).mpr ?_)
            simpa only [Nat.add_assoc, Nat.add_comm 1 j] using hjx
      rw [hnone, ok_bind]
      refine iff_of_true ⟨none, rfl⟩ ?_
      rintro ⟨i', d, hi', hd, -⟩
      obtain rfl := hfirst.unique hi'
      exact hoffset ⟨d, hd⟩

/-- No access is out of bounds, and the items that are found are items of `b`. -/
def StaysInBounds (a b : List Dynamic) : Prop :=
  ∃ r, detectInsertion a b = .ok r ∧ ∀ ins, r = some ins → ins.index + ins.count ≤ b.length

theorem staysInBounds_iff (hlen : a.length < b.length) : StaysInBounds a b ↔ ¬ RunsOut a b := by
  rw [← detectInsertion_returns_iff hlen]
  refine exists_congr fun r => and_iff_left_of_imp fun hr ins hins => ?_
  rw [hins, detectInsertion_eq (Nat.le_of_lt hlen)] at hr
  obtain ⟨a₁, a₂, b₁, b₂, b₃, b₄, hd⟩ := detectInsertion_some hr
  rw [hd.right, ← hd.index, ← hd.count]
  simp only [List.length_append]
  omega

/-- With 1 matched at offset 2 the 2 has no counterpart. -/
theorem not_staysInBounds_runsOut :
    ¬ ∀ a b : List Dynamic, a.length < b.length → StaysInBounds a b := by
  intro h
  obtain ⟨r, hr, -⟩ := h [integer 1, integer 2] [integer 3, integer 4, integer 1] (by decide)
  rw [detectInsertion_eq (by decide)] at hr
  cases hr

theorem staysInBounds_iff_inserted :
    StaysInBounds [integer 1, integer 3] [integer 1, integer 2, integer 3] ↔
      ¬ RunsOut [integer 1, integer 3] [integer 1, integer 2, integer 3] :=
  staysInBounds_iff (by decide)

end Indexed
end Cradle
