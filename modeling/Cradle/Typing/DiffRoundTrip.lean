import Cradle.Typing.DiffCompute

/-!
# When a diff leads to its target

Applying the diff of `a` and `b` to `a` gives `b` for scalars, for maps, and for arrays of
one size, if it does so for their parts.  For arrays of different sizes it depends on
`detect_insertion`, which takes the first match for the offset and does not compare it
with the difference of the sizes, so that items at the end can be missed.
-/

open Cradle.Dynamic

namespace Cradle

variable {abi : Abi}

/-! ## What a diff leads to -/

/-- The diff of `a` and `b` at a path leads from `a` to `b`. -/
def LeadsTo (abi : Abi) (path : List Dynamic) (a b : Dynamic) : Prop :=
  ∃ d r, computeDiffAt abi a path b = .ok d ∧ applyFrom path.length a d = .ok r
    ∧ r.equals b = true

theorem leadsTo_of_ok {path : List Dynamic} {a b : Dynamic} {d : ValueDiff}
    (h : computeDiffAt abi a path b = .ok d) : LeadsTo abi path a b
      ↔ ∃ r, applyFrom path.length a d = .ok r ∧ r.equals b = true := by
  constructor
  · rintro ⟨d', r, hd, hr⟩
    rw [h] at hd
    cases hd
    exact ⟨r, hr⟩
  · exact fun ⟨r, hr⟩ => ⟨d, r, h, hr⟩

theorem forall₂_append_iff {α : Type*} {R : α → α → Prop} {l u l' u' : List α}
    (h : l.length = u.length) :
    List.Forall₂ R (l ++ l') (u ++ u') ↔ List.Forall₂ R l u ∧ List.Forall₂ R l' u' := by
  induction l generalizing u with
  | nil => simp [List.length_eq_zero_iff.mp h.symm]
  | cons x l ih =>
      cases u with
      | nil => simp at h
      | cons y u => simp [ih (Nat.succ.inj h), and_assoc]

theorem fieldsEqual_snoc {done done' : List (Dynamic × Dynamic)} (h : done.length = done'.length)
    (s : Bytes) (z y : Dynamic) :
    FieldsEqual (done ++ [(string s, z)]) (done' ++ [(string s, y)])
      ↔ FieldsEqual done done' ∧ z.equals y = true := by
  refine (forall₂_append_iff h).trans ?_
  simp [equals]

theorem allEqual_snoc {done done' : List Dynamic} (h : done.length = done'.length)
    (z y : Dynamic) :
    AllEqual (done ++ [z]) (done' ++ [y]) ↔ AllEqual done done' ∧ z.equals y = true := by
  refine (forall₂_append_iff h).trans ?_
  simp

/-- The loop over the fields of two maps leads to the second map exactly if the diffs of
the common fields lead to its values.  `done` and `done'` are the fields before. -/
theorem FieldWalk.apply_iff {path : List Dynamic} {as bs : List (Dynamic × Dynamic)}
    {d : ValueDiff} (h : FieldWalk abi path as bs d)
    (hunder : ∀ f ∈ as, ∀ g ∈ bs, ∀ s c,
      computeDiffAt abi f.2 (extendPath path (string s)) g.2 = .ok c →
        Under (extendPath path (string s)) c)
    (hself : ∀ g ∈ bs, g.2.equals g.2 = true) (done done' : List (Dynamic × Dynamic))
    (hlen : done.length = done'.length)
    (hdone : ∀ f ∈ done, ∃ t, f.1 = string t ∧ Before t as ∧ Before t bs) :
    (∃ r, applyFrom path.length (.map (done ++ as)) d = .ok r
        ∧ r.equals (.map (done' ++ bs)) = true)
      ↔ FieldsEqual done done'
        ∧ Common as bs fun s x y => LeadsTo abi (extendPath path (string s)) x y := by
  induction h generalizing done done' with
  | nil =>
      have hnone : Common [] [] fun s x y => LeadsTo abi (extendPath path (string s)) x y :=
        fun _ _ _ hx => absurd hx List.not_mem_nil
      simp only [applyFrom_nil, List.append_nil, Except.ok.injEq, exists_eq_left', equals_map,
        hnone, and_true]
  | @insert s y as bs d ha hb rest ih =>
      rw [List.forall_mem_cons] at hself
      have hafter : After s done := fun f hf => by
        obtain ⟨t, ht, -, hbefore⟩ := hdone f hf
        obtain ⟨u, hu, hlt⟩ := hbefore _ List.mem_cons_self
        cases hu
        exact ⟨t, ht, hlt⟩
      rw [apply_insert_field hafter ha, common_insert ha]
      have hnext := ih (fun f hf g hg => hunder f hf g (List.mem_cons_of_mem _ hg)) hself.2
        (done ++ [(string s, y)]) (done' ++ [(string s, y)]) (by simp [hlen]) ?_
      · rw [List.append_assoc, List.append_assoc, fieldsEqual_snoc hlen] at hnext
        simpa [hself.1] using hnext
      · intro f hf
        rcases List.mem_append.mp hf with hf | hf
        · obtain ⟨t, ht, hta, htb⟩ := hdone f hf
          exact ⟨t, ht, hta, fun g hg => htb g (List.mem_cons_of_mem _ hg)⟩
        · rw [List.mem_singleton.mp hf]
          exact ⟨s, rfl, ha, hb⟩
  | @delete s x as bs d ha hb rest ih =>
      have hafter : After s done := fun f hf => by
        obtain ⟨t, ht, hbefore, -⟩ := hdone f hf
        obtain ⟨u, hu, hlt⟩ := hbefore _ List.mem_cons_self
        cases hu
        exact ⟨t, ht, hlt⟩
      rw [apply_delete_field hafter ha, common_delete hb]
      refine ih (fun f hf => hunder f (List.mem_cons_of_mem _ hf)) hself done done' hlen
        fun f hf => ?_
      obtain ⟨t, ht, hta, htb⟩ := hdone f hf
      exact ⟨t, ht, fun g hg => hta g (List.mem_cons_of_mem _ hg), htb⟩
  | @both s x y as bs c d ha hb child rest ih =>
      rw [List.forall_mem_cons] at hself
      have hafter : After s done := fun f hf => by
        obtain ⟨t, ht, hbefore, -⟩ := hdone f hf
        obtain ⟨u, hu, hlt⟩ := hbefore _ List.mem_cons_self
        cases hu
        exact ⟨t, ht, hlt⟩
      have hlength : path.length + 1 = (extendPath path (string s)).length := by simp [extendPath]
      rw [applyFrom_append, common_both ha hb, leadsTo_of_ok child,
        apply_descend_field (hunder _ List.mem_cons_self _ List.mem_cons_self s c child) hafter,
        hlength]
      cases hres : applyFrom (extendPath path (string s)).length x c with
      | error e => simp [bind, Except.bind, Except.map]
      | ok z =>
          have hnext := ih (fun f hf g hg =>
              hunder f (List.mem_cons_of_mem _ hf) g (List.mem_cons_of_mem _ hg)) hself.2
            (done ++ [(string s, z)]) (done' ++ [(string s, y)]) (by simp [hlen]) ?_
          · rw [List.append_assoc, List.append_assoc, fieldsEqual_snoc hlen] at hnext
            simpa [bind, Except.bind, Except.map, and_assoc] using hnext
          · intro f hf
            rcases List.mem_append.mp hf with hf | hf
            · obtain ⟨t, ht, hta, htb⟩ := hdone f hf
              exact ⟨t, ht, fun g hg => hta g (List.mem_cons_of_mem _ hg),
                fun g hg => htb g (List.mem_cons_of_mem _ hg)⟩
            · rw [List.mem_singleton.mp hf]
              exact ⟨s, rfl, ha, hb⟩

/-- The same for the items of two arrays of one size. -/
theorem itemDiffs_apply_iff {path : List Dynamic} {as bs : List Dynamic} {i : ℕ} {d : ValueDiff}
    (h : itemDiffs abi as path i bs = .ok d) (hsize : as.length = bs.length)
    (hunder : ∀ x ∈ as, ∀ y ∈ bs, ∀ j c,
      computeDiffAt abi x (extendPath path (integer j)) y = .ok c →
        Under (extendPath path (integer j)) c)
    (done done' : List Dynamic) (hlen : done.length = done'.length) (hi : done.length = i) :
    (∃ r, applyFrom path.length (.array (done ++ as)) d = .ok r
        ∧ r.equals (.array (done' ++ bs)) = true)
      ↔ AllEqual done done'
        ∧ Itemwise as bs fun j x y => LeadsTo abi (extendPath path (integer (i + j : ℕ))) x y := by
  induction as generalizing bs i d done done' with
  | nil =>
      cases List.length_eq_zero_iff.mp hsize.symm
      simp only [itemDiffs, Except.ok.injEq] at h
      subst h
      have hnone : Itemwise [] [] fun j x y =>
          LeadsTo abi (extendPath path (integer (i + j : ℕ))) x y := fun _ _ _ hx => by simp at hx
      simp only [applyFrom_nil, List.append_nil, Except.ok.injEq, exists_eq_left', equals_array,
        hnone, and_true]
  | cons x as ih =>
      cases bs with
      | nil => simp at hsize
      | cons y bs =>
          obtain ⟨c, e, hc, he, rfl⟩ := itemDiffs_cons_eq_ok.mp h
          have hlength : path.length + 1 = (extendPath path (integer i)).length := by
            simp [extendPath]
          have hplace := hunder x List.mem_cons_self y List.mem_cons_self i c hc
          subst hi
          rw [applyFrom_append, itemwise_cons, Nat.add_zero, leadsTo_of_ok hc,
            apply_descend_item hplace, hlength]
          have hshift : (fun j x y => LeadsTo abi
              (extendPath path (integer (done.length + (j + 1) : ℕ))) x y)
              = fun j x y => LeadsTo abi
                (extendPath path (integer (done.length + 1 + j : ℕ))) x y := by
            funext j
            rw [Nat.add_right_comm, Nat.add_assoc]
          rw [hshift]
          cases hres : applyFrom (extendPath path (integer done.length)).length x c with
          | error f => simp [bind, Except.bind, Except.map]
          | ok z =>
              have hnext := ih he (Nat.succ.inj hsize) (fun x hx y hy =>
                  hunder x (List.mem_cons_of_mem _ hx) y (List.mem_cons_of_mem _ hy))
                (done ++ [z]) (done' ++ [y]) (by simp [hlen]) (by simp)
              rw [List.append_assoc, List.append_assoc, allEqual_snoc hlen] at hnext
              simpa [bind, Except.bind, Except.map, and_assoc] using hnext

/-- Inserting what was detected leads to the longer array exactly if it accounts for the
difference of the sizes. -/
theorem insertion_apply_iff {path as bs : List Dynamic} {ins : InsertionDescription}
    (h : detectInsertion as bs = .ok (some ins)) (hb : ∀ y ∈ bs, y.equals y = true) :
    (∃ r, applyFrom path.length (.array as) (insertionDiff path bs (some ins)) = .ok r
        ∧ r.equals (.array bs) = true) ↔ as.length + ins.count = bs.length := by
  obtain ⟨a₁, a₂, b₁, b₂, b₃, b₄, hd⟩ := detectInsertion_some h
  have hindex : ins.index = a₁.length := by rw [← hd.index, hd.before.length_eq]
  have happly : applyFrom path.length (.array as) (insertionDiff path bs (some ins))
      = .ok (.array (a₁ ++ b₂ ++ a₂)) := by
    rw [insertionDiff, hd.inserted, hindex, hd.left]
    exact apply_insertItems a₁ b₂ a₂
  have hself : AllEqual b₂ b₂ := by
    refine List.forall₂_same.mpr fun y hy => hb y ?_
    rw [hd.right]
    simp [hy]
  rw [happly, ← hd.end_eq_nil_iff]
  simp only [Except.ok.injEq, exists_eq_left', equals_array]
  constructor
  · intro heq
    have hlen := heq.length_eq
    rw [hd.right] at hlen
    simp only [List.length_append] at hlen
    apply hd.end_eq_nil_of_length
    omega
  · rintro rfl
    rw [hd.right, List.append_nil]
    exact List.rel_append (List.rel_append hd.before hself) hd.after

/-- Deleting what was detected leads to the shorter array exactly if it accounts for the
difference of the sizes. -/
theorem removal_apply_iff {path as bs : List Dynamic} {rem : InsertionDescription}
    (h : detectInsertion bs as = .ok (some rem)) :
    (∃ r, applyFrom path.length (.array as) (removalDiff path as (some rem)) = .ok r
        ∧ r.equals (.array bs) = true) ↔ bs.length + rem.count = as.length := by
  obtain ⟨a₁, a₂, b₁, b₂, b₃, b₄, hd⟩ := detectInsertion_some h
  have happly : applyFrom path.length (.array as) (removalDiff path as (some rem))
      = .ok (.array (b₁ ++ (b₃ ++ b₄))) := by
    rw [removalDiff, hd.inserted, ← hd.index, hd.right, List.append_assoc]
    exact apply_deleteItems b₁ b₂ (b₃ ++ b₄)
  rw [happly, ← hd.end_eq_nil_iff]
  simp only [Except.ok.injEq, exists_eq_left', equals_array]
  constructor
  · intro heq
    have hlen := heq.length_eq
    rw [hd.left] at hlen
    simp only [List.length_append] at hlen
    apply hd.end_eq_nil_of_length
    omega
  · rintro rfl
    rw [hd.left, List.append_nil]
    exact List.rel_append (hd.before.flip.imp fun _ _ => equals_symm)
      (hd.after.flip.imp fun _ _ => equals_symm)

/-! ## The condition -/

/-- `compute_map_diff` uses the diffs of the fields. -/
def usesFields (abi : Abi) (path : List Dynamic) (as bs : List (Dynamic × Dynamic)) : Bool :=
  match fieldDiffs abi as path bs with
  | .ok c =>
      match c.toDynamic.nativelyEncodedSizeof,
        ValueDiff.toDynamic [makeUpdateItem path (.map as) (.map bs)] |>.nativelyEncodedSizeof with
      | some m, some n => m < n
      | _, _ => false
  | .error _ => false

/-- `compute_array_diff` uses the compressed diff. -/
def usesItems (abi : Abi) (path : List Dynamic) (as bs : List Dynamic) : Bool :=
  match compressedArrayDiff path as bs (itemDiffs abi as path 0 bs) with
  | .ok c => !c.isEmpty
      && ValueDiff.deepSizeof abi c
        < ValueDiff.deepSizeof abi [makeUpdateItem path (.array as) (.array bs)]
  | .error _ => false

/-- Wherever the compressed diff of two arrays of different sizes is part of the result, the
detected insertion or removal accounts for the difference of the sizes. -/
inductive Recovers (abi : Abi) : List Dynamic → Dynamic → Dynamic → Prop
  | equal {path : List Dynamic} {a b : Dynamic} (h : a.equals b = true) : Recovers abi path a b
  | other {path : List Dynamic} {a b : Dynamic} (h : Incomparable a b) : Recovers abi path a b
  | mapWhole {path : List Dynamic} {as bs : List (Dynamic × Dynamic)}
      (h : usesFields abi path as bs = false) : Recovers abi path (map as) (map bs)
  | mapFields {path : List Dynamic} {as bs : List (Dynamic × Dynamic)}
      (h : ∀ s x y, (string s, x) ∈ as → (string s, y) ∈ bs →
        Recovers abi (extendPath path (string s)) x y) : Recovers abi path (map as) (map bs)
  | arrayWhole {path as bs : List Dynamic} (h : usesItems abi path as bs = false) :
      Recovers abi path (array as) (array bs)
  | arrayItems {path as bs : List Dynamic} (hlen : as.length = bs.length)
      (h : ∀ (j : ℕ) (x y : Dynamic), as[j]? = some x → bs[j]? = some y →
        Recovers abi (extendPath path (integer j)) x y) : Recovers abi path (array as) (array bs)
  | insertion {path as bs : List Dynamic} {ins : InsertionDescription}
      (hlen : as.length < bs.length) (h : detectInsertion as bs = .ok (some ins))
      (hcount : as.length + ins.count = bs.length) : Recovers abi path (array as) (array bs)
  | removal {path as bs : List Dynamic} {rem : InsertionDescription}
      (hlen : bs.length < as.length) (h : detectInsertion bs as = .ok (some rem))
      (hcount : bs.length + rem.count = as.length) : Recovers abi path (array as) (array bs)

theorem eq_of_computeMapDiff {path : List Dynamic} {as bs : List (Dynamic × Dynamic)}
    {c d : ValueDiff} (hc : fieldDiffs abi as path bs = .ok c)
    (hd : computeMapDiff path as bs (fieldDiffs abi as path bs) = .ok d) :
    d = if usesFields abi path as bs then c else [makeUpdateItem path (.map as) (.map bs)] := by
  obtain ⟨c', hc', hsmaller⟩ := computeMapDiff_eq_ok.mp hd
  rw [hc] at hc'
  cases hc'
  obtain ⟨m, n, hm, hn, rfl⟩ := smallerEncoded_eq_ok.mp hsmaller
  simp [usesFields, hc, hm, hn]

theorem eq_of_computeArrayDiff {path as bs : List Dynamic} {c d : ValueDiff}
    (hc : compressedArrayDiff path as bs (itemDiffs abi as path 0 bs) = .ok c)
    (hd : computeArrayDiff abi path as bs (itemDiffs abi as path 0 bs) = .ok d) :
    d = if usesItems abi path as bs then c else [makeUpdateItem path (.array as) (.array bs)] := by
  obtain ⟨c', hc', rfl⟩ := computeArrayDiff_eq_ok.mp hd
  rw [hc] at hc'
  cases hc'
  simp [usesItems, hc, ValueDiff.smallerDeep]

theorem leadsTo_update {path : List Dynamic} {a b : Dynamic} (hb : b.Regular)
    (h : computeDiffAt abi a path b = .ok [makeUpdateItem path a b]) : LeadsTo abi path a b :=
  (leadsTo_of_ok h).mpr ⟨b, apply_update a b, hb.equals_self⟩

/-- Maps whose fields are used. -/
theorem leadsTo_fields {path : List Dynamic} {as bs : List (Dynamic × Dynamic)} {c : ValueDiff}
    (ha : (Dynamic.map as).Regular) (hb : (Dynamic.map bs).Regular)
    (hc : fieldDiffs abi as path bs = .ok c)
    (h : computeDiffAt abi (.map as) path (.map bs) = .ok c) : LeadsTo abi path (.map as) (.map bs)
      ↔ Common as bs fun s x y => LeadsTo abi (extendPath path (string s)) x y := by
  have hwalk := fieldWalk_of_ok (ordered_of_regular ha) (ordered_of_regular hb) hc
  have hiff := hwalk.apply_iff (fun f hf g hg s c hc =>
      (placed_of_ok (regular_value ha hf) (regular_value hb hg) hc).under)
    (fun g hg => (regular_value hb hg).equals_self) [] [] rfl
    fun f hf => absurd hf List.not_mem_nil
  rw [leadsTo_of_ok h]
  simpa using hiff

/-- Arrays of one size whose items are used. -/
theorem leadsTo_items {path as bs : List Dynamic} {c : ValueDiff}
    (ha : (Dynamic.array as).Regular) (hb : (Dynamic.array bs).Regular)
    (hlen : as.length = bs.length) (hc : itemDiffs abi as path 0 bs = .ok c)
    (h : computeDiffAt abi (.array as) path (.array bs) = .ok c) :
    LeadsTo abi path (.array as) (.array bs)
      ↔ Itemwise as bs fun j x y => LeadsTo abi (extendPath path (integer j)) x y := by
  have hiff := itemDiffs_apply_iff hc hlen (fun x hx y hy j c hc =>
    (placed_of_ok (regular_item ha hx) (regular_item hb hy) hc).under) [] [] rfl rfl
  rw [leadsTo_of_ok h]
  simpa using hiff

theorem leadsTo_map_iff {path : List Dynamic} {as bs : List (Dynamic × Dynamic)} {d : ValueDiff}
    (ha : (Dynamic.map as).Regular) (hb : (Dynamic.map bs).Regular)
    (hne : ¬ (Dynamic.map as).equals (.map bs) = true)
    (hd : computeDiffAt abi (.map as) path (.map bs) = .ok d)
    (ih : Common as bs fun s x y => LeadsTo abi (extendPath path (string s)) x y
      ↔ Recovers abi (extendPath path (string s)) x y) :
    LeadsTo abi path (.map as) (.map bs) ↔ Recovers abi path (.map as) (.map bs) := by
  have hmap := hd
  rw [computeDiffAt_map hne] at hmap
  obtain ⟨c, hc, -⟩ := computeMapDiff_eq_ok.mp hmap
  have hchoice := eq_of_computeMapDiff hc hmap
  cases huses : usesFields abi path as bs with
  | false =>
      simp only [huses, Bool.false_eq_true, if_false] at hchoice
      rw [hchoice] at hd
      exact ⟨fun _ => .mapWhole huses, fun _ => leadsTo_update hb hd⟩
  | true =>
      simp only [huses, if_true] at hchoice
      rw [hchoice] at hd
      rw [leadsTo_fields ha hb hc hd]
      constructor
      · exact fun h => .mapFields fun s x y hx hy => (ih s x y hx hy).mp (h s x y hx hy)
      · intro h
        cases h with
        | equal h => exact absurd h hne
        | other h => exact absurd ⟨rfl, rfl⟩ h.1
        | mapWhole h => simp [huses] at h
        | mapFields h => exact fun s x y hx hy => (ih s x y hx hy).mpr (h s x y hx hy)

theorem leadsTo_array_iff {path as bs : List Dynamic} {d : ValueDiff}
    (ha : (Dynamic.array as).Regular) (hb : (Dynamic.array bs).Regular)
    (hne : ¬ (Dynamic.array as).equals (.array bs) = true)
    (hd : computeDiffAt abi (.array as) path (.array bs) = .ok d)
    (ih : as.length = bs.length → Itemwise as bs fun j x y =>
      LeadsTo abi (extendPath path (integer j)) x y
        ↔ Recovers abi (extendPath path (integer j)) x y) :
    LeadsTo abi path (.array as) (.array bs) ↔ Recovers abi path (.array as) (.array bs) := by
  have harray := hd
  rw [computeDiffAt_array hne] at harray
  obtain ⟨c, hc, -⟩ := computeArrayDiff_eq_ok.mp harray
  have hchoice := eq_of_computeArrayDiff hc harray
  cases huses : usesItems abi path as bs with
  | false =>
      simp only [huses, Bool.false_eq_true, if_false] at hchoice
      rw [hchoice] at hd
      exact ⟨fun _ => .arrayWhole huses, fun _ => leadsTo_update hb hd⟩
  | true =>
      simp only [huses, if_true] at hchoice
      rw [hchoice] at hd
      rcases Nat.lt_trichotomy as.length bs.length with hlt | heq | hgt
      · -- an empty diff is not used, so there is an insertion
        obtain ⟨ins, hins, rfl⟩ : ∃ ins, detectInsertion as bs = .ok (some ins)
            ∧ c = insertionDiff path bs (some ins) := by
          rw [compressedArrayDiff_longer hlt] at hc
          cases hr : detectInsertion as bs with
          | error e => simp [hr, Except.map] at hc
          | ok r =>
              cases r with
              | none =>
                  simp_all [usesItems, compressedArrayDiff_longer hlt, Except.map, insertionDiff]
              | some ins => exact ⟨ins, rfl, by simpa [hr, Except.map] using hc.symm⟩
        rw [leadsTo_of_ok hd, insertion_apply_iff hins fun y hy => (regular_item hb hy).equals_self]
        refine ⟨fun h => .insertion hlt hins h, fun h => ?_⟩
        cases h with
        | equal h => exact absurd h hne
        | other h => exact absurd ⟨rfl, rfl⟩ h.2
        | arrayWhole h => simp [huses] at h
        | arrayItems hlen => omega
        | insertion _ h hcount =>
            rw [hins] at h
            cases h
            exact hcount
        | removal hlen => omega
      · rw [compressedArrayDiff_same heq] at hc
        rw [leadsTo_items ha hb heq hc hd]
        have hitem := ih heq
        constructor
        · exact fun h => .arrayItems heq fun j x y hx hy => (hitem j x y hx hy).mp (h j x y hx hy)
        · intro h
          cases h with
          | equal h => exact absurd h hne
          | other h => exact absurd ⟨rfl, rfl⟩ h.2
          | arrayWhole h => simp [huses] at h
          | arrayItems _ h => exact fun j x y hx hy => (hitem j x y hx hy).mpr (h j x y hx hy)
          | insertion hlen => omega
          | removal hlen => omega
      · obtain ⟨rem, hrem, rfl⟩ : ∃ rem, detectInsertion bs as = .ok (some rem)
            ∧ c = removalDiff path as (some rem) := by
          rw [compressedArrayDiff_shorter hgt] at hc
          cases hr : detectInsertion bs as with
          | error e => simp [hr, Except.map] at hc
          | ok r =>
              cases r with
              | none =>
                  simp_all [usesItems, compressedArrayDiff_shorter hgt, Except.map, removalDiff]
              | some rem => exact ⟨rem, rfl, by simpa [hr, Except.map] using hc.symm⟩
        rw [leadsTo_of_ok hd, removal_apply_iff hrem]
        refine ⟨fun h => .removal hgt hrem h, fun h => ?_⟩
        cases h with
        | equal h => exact absurd h hne
        | other h => exact absurd ⟨rfl, rfl⟩ h.2
        | arrayWhole h => simp [huses] at h
        | arrayItems hlen => omega
        | insertion hlen => omega
        | removal _ h hcount =>
            rw [hrem] at h
            cases h
            exact hcount

/-- If the diff can be computed, then it leads to its target exactly under the condition. -/
theorem leadsTo_iff_recovers {a b : Dynamic} (ha : a.Regular) (hb : b.Regular)
    {path : List Dynamic} {d : ValueDiff} (hd : computeDiffAt abi a path b = .ok d) :
    LeadsTo abi path a b ↔ Recovers abi path a b := by
  induction a, b using diff_induction generalizing path d with
  | equal a b heq =>
      refine ⟨fun _ => .equal heq, fun _ => ?_⟩
      rw [leadsTo_of_ok (computeDiffAt_equal heq)]
      exact ⟨a, rfl, heq⟩
  | other a b hne hi =>
      exact ⟨fun _ => .other hi, fun _ => leadsTo_update hb (computeDiffAt_incomparable hne hi)⟩
  | map as bs hne ih =>
      refine leadsTo_map_iff ha hb hne hd fun s x y hx hy => ?_
      rw [computeDiffAt_map hne] at hd
      obtain ⟨c, hc, -⟩ := computeMapDiff_eq_ok.mp hd
      obtain ⟨e, he⟩ := (fieldWalk_of_ok (ordered_of_regular ha) (ordered_of_regular hb) hc).child
        s x y hx hy
      exact ih _ hx y (regular_value ha hx) (regular_value hb hy) he
  | array as bs hne ih =>
      refine leadsTo_array_iff ha hb hne hd fun heq j x y hx hy => ?_
      rw [computeDiffAt_array hne] at hd
      obtain ⟨c, hc, -⟩ := computeArrayDiff_eq_ok.mp hd
      rw [compressedArrayDiff_same heq] at hc
      obtain ⟨e, he⟩ := (itemDiffs_ok_iff heq).mp ⟨c, hc⟩ j x y hx hy
      rw [Nat.zero_add] at he
      exact ih x (List.mem_of_getElem? hx) y (regular_item ha (List.mem_of_getElem? hx))
        (regular_item hb (List.mem_of_getElem? hy)) he

/-- The sizes on a 64-bit platform with libstdc++. -/
def abi64 : Abi where
  dynamic := 56
  string := 32
  vector := 24
  map := 48
  optionalDynamic := 64
  blob := 32
  ptime := 8
  enum := 4

/-- A map with one field, an array of integers. -/
def record (items : List ℤ) : Dynamic := .map [(.string [107], .array (items.map .integer))]

theorem regular_integers (items : List ℤ) : (Dynamic.array (items.map .integer)).Regular := by
  refine .array fun x hx => ?_
  obtain ⟨i, -, rfl⟩ := List.mem_map.mp hx
  exact .integer i

theorem regular_record (items : List ℤ) : (record items).Regular := by
  refine .map ?_ ?_ ?_
  · simp
  · simp
  · simpa using regular_integers items

/-- The comparison of the remaining items runs beyond the end of the longer array. -/
example : computeValueDiff abi64 (.array ([1, 2].map .integer)) (.array ([3, 4, 1].map .integer))
    = .error .outOfBounds := rfl

end Cradle
