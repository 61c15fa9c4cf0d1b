import Mathlib.Data.List.Nodup
import Mathlib.Algebra.Order.BigOperators.Group.List
import Mathlib.Algebra.Order.Group.Int
import Mathlib.Algebra.Ring.Int.Defs

/-!
# Tables with a unique key

A `Table key` is a list of rows no two of which have the same key: a hash map seen
as its list of entries, or a database table with a primary key.  Rows are found,
inserted, modified in place and erased by key.  The lemmas say what each operation
does to a lookup and, through `perm_cons_erase`, to any sum or count over the rows.
-/

variable {α κ : Type*}

/-- Rows with pairwise different keys. -/
structure Table (key : α → κ) where
  rows : List α
  nodup : (rows.map key).Nodup

namespace Table

variable {key : α → κ}

instance : EmptyCollection (Table key) := ⟨⟨[], by simp⟩⟩
instance : Membership α (Table key) := ⟨fun t a => a ∈ t.rows⟩
instance : Inhabited (Table key) := ⟨∅⟩

@[simp] theorem rows_empty : (∅ : Table key).rows = [] := rfl
theorem mem_rows {t : Table key} {a : α} : a ∈ t.rows ↔ a ∈ t := Iff.rfl

instance [DecidableEq α] (a : α) (t : Table key) : Decidable (a ∈ t) :=
  inferInstanceAs (Decidable (a ∈ t.rows))

@[simp] theorem not_mem_empty (a : α) : a ∉ (∅ : Table key) := List.not_mem_nil

theorem ext_rows {s t : Table key} (h : s.rows = t.rows) : s = t := by
  cases s; cases t; simp_all

/-- The table has a row with this key. -/
def Has (t : Table key) (k : κ) : Prop := ∃ a ∈ t, key a = k

theorem eq_of_key_eq {t : Table key} {a b : α} (ha : a ∈ t) (hb : b ∈ t) (h : key a = key b) :
    a = b :=
  List.inj_on_of_nodup_map t.nodup ha hb h

/-- Remove the rows that do not satisfy `p`. -/
def filter (t : Table key) (p : α → Bool) : Table key :=
  ⟨t.rows.filter p, t.nodup.sublist (List.filter_sublist.map key)⟩

@[simp] theorem mem_filter {t : Table key} {a : α} {p : α → Bool} :
    a ∈ t.filter p ↔ a ∈ t ∧ p a = true := by
  simp [← mem_rows, filter]

/-- The sum of a weight over the rows. -/
def sum (t : Table key) (w : α → ℤ) : ℤ := (t.rows.map w).sum

@[simp] theorem sum_empty (w : α → ℤ) : (∅ : Table key).sum w = 0 := rfl

theorem sum_le_sum {t : Table key} {w w' : α → ℤ} (h : ∀ a ∈ t, w a ≤ w' a) :
    t.sum w ≤ t.sum w' :=
  List.sum_le_sum h

/-- A sum over some of the rows, of a weight that is not negative. -/
theorem sum_le_sum_of_subset {s t : Table key} {w : α → ℤ} (h : ∀ a ∈ s, a ∈ t)
    (hw : ∀ a ∈ t, 0 ≤ w a) : s.sum w ≤ t.sum w := by
  obtain ⟨rows, hperm, hsub⟩ := List.subperm_of_subset (List.Nodup.of_map key s.nodup)
    fun a ha => h a ha
  have hsum : s.sum w = (rows.map w).sum := (hperm.symm.map w).sum_eq
  rw [hsum]
  refine (hsub.map w).sum_le_sum fun x hx => ?_
  obtain ⟨a, ha, rfl⟩ := List.mem_map.mp hx
  exact hw a ha

variable [DecidableEq κ]

/-- The row with the given key. -/
def find? (t : Table key) (k : κ) : Option α := t.rows.find? fun a => key a = k

theorem find?_eq_some {t : Table key} {k : κ} {a : α} :
    t.find? k = some a ↔ a ∈ t ∧ key a = k := by
  constructor
  · intro h
    exact ⟨List.mem_of_find?_eq_some h, by simpa using List.find?_some h⟩
  · rintro ⟨ha, rfl⟩
    cases hf : t.find? (key a) with
    | none => simpa using List.find?_eq_none.mp hf a ha
    | some b =>
        have hb := List.find?_some hf
        simp only [decide_eq_true_eq] at hb
        rw [eq_of_key_eq (List.mem_of_find?_eq_some hf) ha hb]

theorem find?_eq_none {t : Table key} {k : κ} : t.find? k = none ↔ ∀ a ∈ t, key a ≠ k := by
  simp [find?, List.find?_eq_none, mem_rows]

theorem find?_isSome {t : Table key} {k : κ} : (t.find? k).isSome ↔ t.Has k := by
  simp only [Option.isSome_iff_exists, find?_eq_some, Has]

theorem not_has {t : Table key} {k : κ} : ¬ t.Has k ↔ t.find? k = none := by
  rw [← find?_isSome]; simp

instance (t : Table key) (k : κ) : Decidable (t.Has k) := decidable_of_iff _ find?_isSome

/-- Append a row, unless its key is taken. -/
def insert (t : Table key) (a : α) : Table key :=
  if h : t.Has (key a) then t
  else ⟨t.rows ++ [a], by
    simp only [List.map_append, List.map_cons, List.map_nil]
    refine List.nodup_append.mpr ⟨t.nodup, by simp, ?_⟩
    rintro _ hx _ hy rfl
    obtain ⟨b, hb, hba⟩ := List.mem_map.mp hx
    exact h ⟨b, hb, hba.trans (by simpa using hy)⟩⟩

/-- Apply `f` to the row with the given key; `f` keeps keys. -/
def modify (t : Table key) (k : κ) (f : α → α) (hf : ∀ a, key (f a) = key a) : Table key :=
  ⟨t.rows.map fun a => if key a = k then f a else a, by
    have : (fun a => key (if key a = k then f a else a)) = key := by
      funext a; split <;> simp [hf]
    simpa [List.map_map, Function.comp_def, this] using t.nodup⟩

/-- Apply `f` to every row; `f` keeps keys. -/
def mapRows (t : Table key) (f : α → α) (hf : ∀ a, key (f a) = key a) : Table key :=
  ⟨t.rows.map f, by
    have : (fun a => key (f a)) = key := funext hf
    simpa [List.map_map, Function.comp_def, this] using t.nodup⟩

/-- Remove the row with the given key. -/
def erase (t : Table key) (k : κ) : Table key := t.filter fun a => key a ≠ k

variable {t : Table key} {k k' : κ} {a b : α} {f : α → α} {hf : ∀ a, key (f a) = key a}

/-! ## Membership and lookup -/

theorem rows_insert (h : ¬ t.Has (key a)) : (t.insert a).rows = t.rows ++ [a] := by
  simp [insert, h]

theorem mem_insert (h : ¬ t.Has (key a)) : b ∈ t.insert a ↔ b ∈ t ∨ b = a := by
  simp [← mem_rows, rows_insert h]

@[simp] theorem mem_erase : a ∈ t.erase k ↔ a ∈ t ∧ key a ≠ k := by
  simp [erase]

theorem mem_modify (hf : ∀ a, key (f a) = key a) :
    b ∈ t.modify k f hf ↔ ∃ a ∈ t, b = if key a = k then f a else a := by
  simp only [← mem_rows, modify, List.mem_map, eq_comm]

theorem find?_insert (h : ¬ t.Has (key a)) :
    (t.insert a).find? k = if k = key a then some a else t.find? k := by
  split
  · next hk => exact find?_eq_some.mpr ⟨(mem_insert h).mpr (.inr rfl), hk.symm⟩
  · next hk =>
      cases hf : t.find? k with
      | none =>
          rw [find?_eq_none] at hf ⊢
          intro b hb
          rcases (mem_insert h).mp hb with hb | rfl
          · exact hf b hb
          · exact fun he => hk he.symm
      | some b =>
          rw [find?_eq_some] at hf ⊢
          exact ⟨(mem_insert h).mpr (.inl hf.1), hf.2⟩

theorem find?_modify :
    (t.modify k f hf).find? k' = if k' = k then (t.find? k).map f else t.find? k' := by
  simp only [find?, modify, List.find?_map, Function.comp_def]
  have hkey : ∀ a, key (if key a = k then f a else a) = key a := by
    intro a; split <;> simp [hf]
  simp only [hkey]
  split
  · next hk =>
      subst hk
      cases hfind : t.rows.find? fun a => key a = k' with
      | none => rfl
      | some a =>
          have := List.find?_some hfind
          simp_all
  · next hk =>
      cases hfind : t.rows.find? fun a => key a = k' with
      | none => rfl
      | some a =>
          have ha := List.find?_some hfind
          simp only [decide_eq_true_eq] at ha
          simp [ha, hk]

@[simp] theorem find?_modify_self : (t.modify k f hf).find? k = (t.find? k).map f := by
  simp [find?_modify]

theorem find?_modify_ne (h : k' ≠ k) : (t.modify k f hf).find? k' = t.find? k' := by
  simp [find?_modify, h]

theorem find?_mapRows : (t.mapRows f hf).find? k = (t.find? k).map f := by
  simp only [find?, mapRows, List.find?_map, Function.comp_def, hf]

theorem find?_filter {p : α → Bool} : (t.filter p).find? k = (t.find? k).filter p := by
  cases hfind : t.find? k with
  | none =>
      rw [find?_eq_none] at hfind
      exact find?_eq_none.mpr fun b hb => hfind b (mem_filter.mp hb).1
  | some a =>
      obtain ⟨ha, hk⟩ := find?_eq_some.mp hfind
      by_cases hp : p a = true
      · rw [Option.filter_some, if_pos hp]
        exact find?_eq_some.mpr ⟨mem_filter.mpr ⟨ha, hp⟩, hk⟩
      · rw [Option.filter_some, if_neg hp, find?_eq_none]
        intro b hb hbk
        obtain ⟨hb, hpb⟩ := mem_filter.mp hb
        rw [eq_of_key_eq hb ha (hbk.trans hk.symm)] at hpb
        exact hp hpb

theorem find?_erase : (t.erase k).find? k' = if k' = k then none else t.find? k' := by
  split
  · next hk => simp [find?_eq_none, hk]
  · next hk =>
      cases hf : t.find? k' with
      | none =>
          rw [find?_eq_none] at hf ⊢
          exact fun b hb => hf b (mem_erase.mp hb).1
      | some b =>
          rw [find?_eq_some] at hf ⊢
          exact ⟨mem_erase.mpr ⟨hf.1, by rw [hf.2]; exact hk⟩, hf.2⟩

theorem modify_modify {g : α → α} {hg : ∀ a, key (g a) = key a} :
    (t.modify k f hf).modify k g hg
      = t.modify k (fun a => g (f a)) fun a => (hg _).trans (hf a) := by
  refine ext_rows ?_
  simp only [modify, List.map_map]
  refine List.map_congr_left fun a _ => ?_
  by_cases h : key a = k
  · simp [h, hf]
  · simp [h]

theorem has_modify (hf : ∀ a, key (f a) = key a) :
    (t.modify k f hf).Has k' ↔ t.Has k' := by
  simp only [← find?_isSome, find?_modify]
  split
  · next h => subst h; simp
  · rfl

theorem has_erase : (t.erase k).Has k' ↔ t.Has k' ∧ k' ≠ k := by
  simp only [← find?_isSome, find?_erase]
  split
  · next h => simp [h]
  · next h => simp [h]

theorem has_insert (h : ¬ t.Has (key a)) : (t.insert a).Has k ↔ t.Has k ∨ k = key a := by
  simp only [← find?_isSome, find?_insert h]
  split
  · next hk => simp [hk]
  · next hk => simp [hk]

/-! ## Sums and counts, by splitting off one row -/

/-- The rows are one row and the others. -/
theorem perm_cons_erase (h : t.find? k = some a) : t.rows.Perm (a :: (t.erase k).rows) := by
  obtain ⟨ha, rfl⟩ := find?_eq_some.mp h
  obtain ⟨rows, nodup⟩ := t
  simp only [erase, filter, ← mem_rows] at ha ⊢
  clear h
  induction rows with
  | nil => simp at ha
  | cons b rows ih =>
      simp only [List.map_cons, List.nodup_cons] at nodup
      rcases List.mem_cons.mp ha with rfl | ha
      · have hkeep : rows.filter (fun b => decide (key b ≠ key a)) = rows :=
          List.filter_eq_self.mpr fun c hc =>
            decide_eq_true fun he => nodup.1 (List.mem_map.mpr ⟨c, hc, he⟩)
        rw [List.filter_cons_of_neg (by simp), hkeep]
      · have hb : key b ≠ key a := fun he => nodup.1 (List.mem_map.mpr ⟨a, ha, he.symm⟩)
        simp only [ne_eq, hb, not_false_eq_true, decide_true, List.filter_cons_of_pos]
        exact ((ih nodup.2 ha).cons b).trans (List.Perm.swap a b _)

/-- After a modification the rows are the modified row and the others. -/
theorem perm_modify (h : t.find? k = some a) :
    (t.modify k f hf).rows.Perm (f a :: (t.erase k).rows) := by
  have hfind : (t.modify k f hf).find? k = some (f a) := by simp [h]
  refine (perm_cons_erase hfind).trans (.of_eq ?_)
  congr 1
  simp only [erase, filter, modify, List.filter_map, Function.comp_def]
  have hkey : ∀ b, key (if key b = k then f b else b) = key b := by
    intro b; split <;> simp [hf]
  simp only [hkey]
  refine (List.map_congr_left fun b hb => ?_).trans (List.map_id _)
  have : key b ≠ k := by simpa using (List.mem_filter.mp hb).2
  simp [this]

variable {w : α → ℤ}

theorem sum_erase (h : t.find? k = some a) : (t.erase k).sum w = t.sum w - w a := by
  have hp := ((perm_cons_erase h).map w).sum_eq
  rw [List.map_cons, List.sum_cons] at hp
  simp only [sum]
  omega

theorem sum_modify (h : t.find? k = some a) :
    (t.modify k f hf).sum w = t.sum w - w a + w (f a) := by
  have hp : ((t.modify k f hf).rows.map w).sum = _ := ((perm_modify h).map w).sum_eq
  rw [List.map_cons, List.sum_cons] at hp
  have he := sum_erase h (w := w)
  simp only [sum] at he ⊢
  omega

theorem sum_insert (h : ¬ t.Has (key a)) : (t.insert a).sum w = t.sum w + w a := by
  simp [sum, rows_insert h]

theorem sum_filter_insert (h : ¬ t.Has (key a)) (p : α → Bool) :
    ((t.insert a).filter p).sum w = (t.filter p).sum w + if p a then w a else 0 := by
  simp only [sum, filter, rows_insert h, List.filter_append, List.map_append, List.sum_append]
  by_cases hp : p a = true
  · simp [hp]
  · simp [hp]

omit [DecidableEq κ] in
theorem filter_congr {p q : α → Bool} (h : ∀ a ∈ t, p a = q a) : t.filter p = t.filter q :=
  ext_rows (List.filter_congr h)

theorem modify_of_not_has (h : ¬ t.Has k) : t.modify k f hf = t := by
  refine ext_rows ?_
  simp only [modify]
  refine (List.map_congr_left fun b hb => ?_).trans (List.map_id _)
  have : key b ≠ k := fun he => h ⟨b, hb, he⟩
  simp [this]

theorem modify_insert (h : ¬ t.Has (key a)) :
    (t.insert a).modify (key a) f hf = t.insert (f a) := by
  have h' : ¬ t.Has (key (f a)) := by rwa [hf]
  refine ext_rows ?_
  have hrows := congrArg rows (modify_of_not_has h (f := f) : t.modify (key a) f hf = t)
  simp only [modify] at hrows
  rw [rows_insert h']
  simp only [modify, rows_insert h, List.map_append, hrows]
  simp

theorem erase_insert (h : ¬ t.Has (key a)) : (t.insert a).erase (key a) = t := by
  refine ext_rows ?_
  have hkeep : t.rows.filter (fun b => decide (key b ≠ key a)) = t.rows :=
    List.filter_eq_self.mpr fun b hb => decide_eq_true fun he => h ⟨b, hb, he⟩
  simp only [erase, filter, rows_insert h, List.filter_append, hkeep]
  simp

/-! ## Unique columns -/

/-- No two rows have the same value in the column `g`. -/
def UniqueBy {β : Type*} (t : Table key) (g : α → β) : Prop :=
  ∀ a ∈ t, ∀ b ∈ t, g a = g b → a = b

section UniqueBy
variable {β : Type*} {g : α → β}

omit [DecidableEq κ] in
theorem UniqueBy.empty : (∅ : Table key).UniqueBy g := fun a ha => absurd ha (not_mem_empty a)

theorem UniqueBy.insert (h : t.UniqueBy g) (ha : ¬ t.Has (key a)) (hg : ∀ b ∈ t, g b ≠ g a) :
    (t.insert a).UniqueBy g := by
  intro b hb c hc he
  rw [mem_insert ha] at hb hc
  rcases hb with hb | hb
  · rcases hc with hc | hc
    · exact h b hb c hc he
    · exact absurd (hc ▸ he) (hg b hb)
  · rcases hc with hc | hc
    · exact absurd (hb ▸ he).symm (hg c hc)
    · rw [hb, hc]

omit [DecidableEq κ] in
theorem UniqueBy.filter (h : t.UniqueBy g) (p : α → Bool) : (t.filter p).UniqueBy g :=
  fun a ha b hb => h a (mem_filter.mp ha).1 b (mem_filter.mp hb).1

theorem UniqueBy.modify (h : t.UniqueBy g) (hf : ∀ a, key (f a) = key a)
    (hg : ∀ a, g (f a) = g a) : (t.modify k f hf).UniqueBy g := by
  have hcol : ∀ a, g (if key a = k then f a else a) = g a := by
    intro a
    split <;> simp [hg]
  intro b hb c hc he
  obtain ⟨b₀, hb₀, rfl⟩ := (mem_modify hf).mp hb
  obtain ⟨c₀, hc₀, rfl⟩ := (mem_modify hf).mp hc
  rw [hcol, hcol] at he
  rw [h b₀ hb₀ c₀ hc₀ he]

end UniqueBy

/-! ## References between rows -/

/-- What the rows refer to is in the table. -/
def RefsResolve (t : Table key) (ref : α → Option κ) : Prop :=
  ∀ a ∈ t, ∀ k, ref a = some k → t.Has k

section RefsResolve
variable {ref : α → Option κ}

omit [DecidableEq κ] in
theorem RefsResolve.empty : (∅ : Table key).RefsResolve ref :=
  fun a ha => absurd ha (not_mem_empty a)

theorem RefsResolve.insert (h : t.RefsResolve ref) (ha : ¬ t.Has (key a))
    (href : ∀ k, ref a = some k → t.Has k) : (t.insert a).RefsResolve ref := by
  intro b hb k hk
  rw [has_insert ha]
  rcases (mem_insert ha).mp hb with hb | rfl
  · exact .inl (h b hb k hk)
  · exact .inl (href k hk)

theorem RefsResolve.modify (h : t.RefsResolve ref) (hf : ∀ a, key (f a) = key a)
    (href : ∀ a, ref (f a) = ref a) : (t.modify k f hf).RefsResolve ref := by
  intro b hb k' hk'
  rw [has_modify]
  obtain ⟨a, ha, rfl⟩ := (mem_modify hf).mp hb
  refine h a ha k' ?_
  rw [← hk']
  split
  · exact (href a).symm
  · rfl

omit [DecidableEq κ] in
/-- Rows can be removed exactly if none that stays refers to one of them. -/
theorem refsResolve_filter_iff (h : t.RefsResolve ref) {p : α → Bool} :
    (t.filter p).RefsResolve ref
      ↔ ∀ a ∈ t, p a = true → ∀ b ∈ t, ref a = some (key b) → p b = true := by
  constructor
  · intro hresolve a ha hpa b hb hab
    obtain ⟨c, hc, hkey⟩ := hresolve a (mem_filter.mpr ⟨ha, hpa⟩) (key b) hab
    rw [mem_filter] at hc
    obtain rfl := eq_of_key_eq hc.1 hb hkey
    exact hc.2
  · intro hstay a ha k hk
    rw [mem_filter] at ha
    obtain ⟨b, hb, rfl⟩ := h a ha.1 k hk
    exact ⟨b, mem_filter.mpr ⟨hb, hstay a ha.1 ha.2 b hb hk⟩, rfl⟩

end RefsResolve

end Table
