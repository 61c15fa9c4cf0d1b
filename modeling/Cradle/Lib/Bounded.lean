import Mathlib.Data.List.Forall2
import Mathlib.Order.Basic

/-!
# Recursion on fuel

A recursive program whose calls are bounded by a number gives nothing where the number was
too small, and otherwise what the program returns or throws.  The rules here say what a
computation put together from others returns, when it throws and when it ends, and that a
larger bound only adds results.
-/

namespace List.Forall₂

variable {α β : Type} {R : α → β → Prop} {xs : List α} {ys : List β}

theorem exists_of_mem_left (h : List.Forall₂ R xs ys) {x : α} (hx : x ∈ xs) :
    ∃ y ∈ ys, R x y := by
  induction h with
  | nil => cases hx
  | cons hxy _ ih =>
      rcases List.mem_cons.mp hx with rfl | hx
      · exact ⟨_, List.mem_cons_self, hxy⟩
      · obtain ⟨y, hy, hxy⟩ := ih hx
        exact ⟨y, List.mem_cons_of_mem _ hy, hxy⟩

theorem exists_of_mem_right (h : List.Forall₂ R xs ys) {y : β} (hy : y ∈ ys) :
    ∃ x ∈ xs, R x y := by
  obtain ⟨x, hx, hxy⟩ := exists_of_mem_left (List.Forall₂.flip h) hy
  exact ⟨x, hx, hxy⟩

/-- Between related items there are the items that relate them. -/
theorem exists_between {γ : Type} {S : α → γ → Prop} {T : γ → β → Prop}
    (h : List.Forall₂ R xs ys) (hR : ∀ x y, R x y → ∃ z, S x z ∧ T z y) :
    ∃ zs, List.Forall₂ S xs zs ∧ List.Forall₂ T zs ys := by
  induction h with
  | nil => exact ⟨[], .nil, .nil⟩
  | cons hxy _ ih =>
      obtain ⟨z, hxz, hzy⟩ := hR _ _ hxy
      obtain ⟨zs, hxs, hys⟩ := ih
      exact ⟨z :: zs, .cons hxz hxs, .cons hzy hys⟩

theorem through {γ : Type} {S : β → γ → Prop} {zs : List γ} (h : List.Forall₂ R xs ys)
    (hS : List.Forall₂ S ys zs) : List.Forall₂ (fun x z => ∃ y, R x y ∧ S y z) xs zs := by
  induction h generalizing zs with
  | nil =>
      cases hS
      exact .nil
  | cons hxy _ ih =>
      cases hS with
      | cons hyz hS => exact .cons ⟨_, hxy, hyz⟩ (ih hS)

theorem map_eq_map {γ : Type} {f : α → γ} {g : β → γ} (h : List.Forall₂ (fun x y => f x = g y) xs ys) :
    xs.map f = ys.map g := by
  rw [← List.forall₂_eq_eq_eq, List.forall₂_map_left_iff, List.forall₂_map_right_iff]
  exact h

/-- Items that are the only ones related are the same. -/
theorem eq_of_unique {ys' : List β} (h : List.Forall₂ (fun x y => ∀ y', R x y' → y = y') xs ys)
    (h' : List.Forall₂ R xs ys') : ys = ys' := by
  induction h generalizing ys' with
  | nil =>
      cases h'
      rfl
  | cons hxy _ ih =>
      cases h' with
      | cons hxy' h' => rw [hxy _ hxy', ih h']

/-- Items that two relations give to the same items are the same where the relations agree. -/
theorem eq_of_agree {S : α → β → Prop} {ys' : List β} (h : List.Forall₂ R xs ys)
    (h' : List.Forall₂ S xs ys') (hagree : ∀ x ∈ xs, ∀ y y', R x y → S x y' → y = y') :
    ys = ys' := by
  induction h generalizing ys' with
  | nil =>
      cases h'
      rfl
  | cons hxy _ ih =>
      cases h' with
      | cons hxy' h' =>
          obtain ⟨hx, hxs⟩ := List.forall_mem_cons.mp hagree
          rw [hx _ _ hxy hxy', ih h' hxs]

/-- What holds of any two of the items goes over to any two of the related ones. -/
theorem pairwise {S : α → α → Prop} {T : β → β → Prop} (h : List.Forall₂ R xs ys)
    (hxs : xs.Pairwise S) (hS : ∀ x x' y y', R x y → R x' y' → S x x' → T y y') :
    ys.Pairwise T := by
  induction h with
  | nil => exact .nil
  | @cons x y xs ys hxy hrest ih =>
      obtain ⟨hx, hxs⟩ := List.pairwise_cons.mp hxs
      refine List.pairwise_cons.mpr ⟨fun y' hy' => ?_, ih hxs⟩
      obtain ⟨x', hx', hxy'⟩ := exists_of_mem_right hrest hy'
      exact hS x x' y y' hxy hxy' (hx x' hx')

theorem exists_of_forall (h : ∀ x ∈ xs, ∃ y, R x y) : ∃ ys, List.Forall₂ R xs ys := by
  induction xs with
  | nil => exact ⟨[], .nil⟩
  | cons x xs ih =>
      obtain ⟨⟨y, hy⟩, hxs⟩ := List.forall_mem_cons.mp h
      obtain ⟨ys, hys⟩ := ih hxs
      exact ⟨y :: ys, .cons hy hys⟩

end List.Forall₂

/-- A computation that returns, throws, or has run out of fuel. -/
abbrev Bounded (ε α : Type) := ExceptT ε Option α

namespace Bounded

variable {ε α β γ : Type} {x y : Bounded ε α} {f g : α → Bounded ε β}

/-- Out of fuel. -/
def exhausted : Bounded ε α := ExceptT.mk none

def Returns (x : Bounded ε α) (a : α) : Prop := x.run = some (.ok a)

def Throws (x : Bounded ε α) : Prop := ∃ e, x.run = some (.error e)

def Ends (x : Bounded ε α) : Prop := x.run.isSome = true

/-- What the first computation ends with, the second ends with too. -/
def Below (x y : Bounded ε α) : Prop := ∀ r, x.run = some r → y.run = some r

theorem run_bind_none (h : x.run = none) : (x >>= f).run = none := by
  rw [ExceptT.run_bind, h]
  rfl

theorem run_bind_error {e : ε} (h : x.run = some (.error e)) :
    (x >>= f).run = some (.error e) := by
  rw [ExceptT.run_bind, h]
  rfl

theorem run_bind_ok {a : α} (h : x.run = some (.ok a)) : (x >>= f).run = (f a).run := by
  rw [ExceptT.run_bind, h]
  rfl

theorem Returns.unique {a b : α} (ha : x.Returns a) (hb : x.Returns b) : a = b := by
  rw [Returns, ha] at hb
  cases hb
  rfl

theorem Returns.ends {a : α} (ha : x.Returns a) : x.Ends := by rw [Ends, ha]; rfl

theorem Throws.ends (h : x.Throws) : x.Ends := by
  obtain ⟨e, he⟩ := h
  rw [Ends, he]
  rfl

theorem ends_iff : x.Ends ↔ (∃ a, x.Returns a) ∨ x.Throws := by
  refine ⟨fun h => ?_, ?_⟩
  · obtain ⟨r, hr⟩ := Option.isSome_iff_exists.mp h
    cases r with
    | ok a => exact .inl ⟨a, hr⟩
    | error e => exact .inr ⟨e, hr⟩
  · rintro (⟨a, ha⟩ | h)
    · exact ha.ends
    · exact h.ends

/-! ## Steps -/

@[simp] theorem returns_pure {a b : α} : (pure a : Bounded ε α).Returns b ↔ a = b := by
  simp [Returns]

@[simp] theorem not_throws_pure {a : α} : ¬ (pure a : Bounded ε α).Throws := by
  simp [Throws]

@[simp] theorem not_returns_throw {e : ε} {a : α} : ¬ (throw e : Bounded ε α).Returns a := by
  simp [Returns]

@[simp] theorem throws_throw {e : ε} : (throw e : Bounded ε α).Throws := ⟨e, rfl⟩

@[simp] theorem ends_pure {a : α} : (pure a : Bounded ε α).Ends := rfl

@[simp] theorem ends_throw {e : ε} : (throw e : Bounded ε α).Ends := rfl

@[simp] theorem not_returns_exhausted {a : α} : ¬ (exhausted : Bounded ε α).Returns a := by
  simp [Returns, exhausted]

@[simp] theorem not_throws_exhausted : ¬ (exhausted : Bounded ε α).Throws := by
  simp [Throws, exhausted]

/-- A computation that needs no fuel. -/
def ofExcept (x : Except ε α) : Bounded ε α := ExceptT.mk (some x)

@[simp] theorem returns_ofExcept {x : Except ε α} {a : α} :
    (ofExcept x).Returns a ↔ x = .ok a := by
  simp [Returns, ofExcept]

@[simp] theorem throws_ofExcept {x : Except ε α} : (ofExcept x).Throws ↔ ∃ e, x = .error e := by
  simp [Throws, ofExcept]

@[simp] theorem ends_ofExcept (x : Except ε α) : (ofExcept x).Ends := rfl

theorem returns_bind {b : β} : (x >>= f).Returns b ↔ ∃ a, x.Returns a ∧ (f a).Returns b := by
  refine ⟨fun h => ?_, ?_⟩
  · cases hx : x.run with
    | none => rw [Returns, run_bind_none hx] at h; cases h
    | some r =>
        cases r with
        | error e => rw [Returns, run_bind_error hx] at h; cases h
        | ok a => exact ⟨a, hx, by rwa [Returns, run_bind_ok hx] at h⟩
  · rintro ⟨a, ha, h⟩
    rwa [Returns, run_bind_ok ha]

theorem Returns.bind {a : α} {b : β} (hx : x.Returns a) (hf : (f a).Returns b) :
    (x >>= f).Returns b := returns_bind.mpr ⟨a, hx, hf⟩

@[simp] theorem returns_map {g : α → β} {b : β} :
    (g <$> x).Returns b ↔ ∃ a, x.Returns a ∧ g a = b := by
  rw [← bind_pure_comp, returns_bind]
  simp only [returns_pure]

theorem throws_bind : (x >>= f).Throws ↔ x.Throws ∨ ∃ a, x.Returns a ∧ (f a).Throws := by
  refine ⟨?_, ?_⟩
  · rintro ⟨e, h⟩
    cases hx : x.run with
    | none => rw [run_bind_none hx] at h; cases h
    | some r =>
        cases r with
        | error e => exact .inl ⟨e, hx⟩
        | ok a => exact .inr ⟨a, hx, e, by rwa [run_bind_ok hx] at h⟩
  · rintro (⟨e, h⟩ | ⟨a, ha, e, h⟩)
    · exact ⟨e, run_bind_error h⟩
    · exact ⟨e, by rwa [run_bind_ok ha]⟩

theorem Ends.bind (hx : x.Ends) (hf : ∀ a, x.Returns a → (f a).Ends) : (x >>= f).Ends := by
  rcases ends_iff.mp hx with ⟨a, ha⟩ | ⟨e, he⟩
  · rw [Ends, run_bind_ok ha]
    exact hf a ha
  · rw [Ends, run_bind_error he]
    rfl

@[simp] theorem ends_map {g : α → β} : (g <$> x).Ends ↔ x.Ends := by
  rw [← bind_pure_comp]
  refine ⟨fun h => ?_, fun h => h.bind fun _ _ => ends_pure⟩
  rcases ends_iff.mp h with ⟨b, hb⟩ | hthrows
  · obtain ⟨a, ha, -⟩ := returns_bind.mp hb
    exact ha.ends
  · rcases throws_bind.mp hthrows with hx | ⟨a, ha, -⟩
    · exact hx.ends
    · exact ha.ends

/-! ## Exceptions passed on -/

/-- An exception is changed on its way out. -/
def rethrow (r : ε → ε) (x : Bounded ε α) : Bounded ε α :=
  ExceptT.mk (x.run.map (Except.mapError r))

theorem run_rethrow (r : ε → ε) (x : Bounded ε α) :
    (rethrow r x).run = x.run.map (Except.mapError r) := rfl

@[simp] theorem returns_rethrow {r : ε → ε} {a : α} : (rethrow r x).Returns a ↔ x.Returns a := by
  rw [Returns, Returns, run_rethrow]
  rcases x.run with _ | _ | b <;> simp [Except.mapError]

@[simp] theorem throws_rethrow {r : ε → ε} : (rethrow r x).Throws ↔ x.Throws := by
  rw [Throws, Throws, run_rethrow]
  rcases x.run with _ | _ | b <;> simp [Except.mapError]

@[simp] theorem ends_rethrow {r : ε → ε} : (rethrow r x).Ends ↔ x.Ends := by
  rw [Ends, Ends, run_rethrow, Option.isSome_map]

/-! ## Larger bounds -/

theorem Below.refl (x : Bounded ε α) : Below x x := fun _ h => h

theorem below_exhausted (y : Bounded ε α) : Below exhausted y := by
  intro r h
  cases h

theorem Ends.of_below (h : x.Ends) (hxy : Below x y) : y.Ends := by
  obtain ⟨r, hr⟩ := Option.isSome_iff_exists.mp h
  rw [Ends, hxy r hr]
  rfl

theorem Below.bind (hx : Below x y) (hf : ∀ a, Below (f a) (g a)) :
    Below (x >>= f) (y >>= g) := by
  intro r h
  cases hrun : x.run with
  | none => rw [run_bind_none hrun] at h; cases h
  | some r' =>
      cases r' with
      | error e => rwa [run_bind_error (hx _ hrun), ← run_bind_error (f := f) hrun]
      | ok a =>
          rw [run_bind_ok hrun] at h
          rw [run_bind_ok (hx _ hrun)]
          exact hf a r h

theorem Below.rethrow (hx : Below x y) (r : ε → ε) : Below (rethrow r x) (rethrow r y) := by
  intro s h
  rw [run_rethrow, Option.map_eq_some_iff] at h ⊢
  obtain ⟨a, ha, rfl⟩ := h
  exact ⟨a, hx a ha, rfl⟩

/-- Of a family that grows, everything past an end ends the same. -/
theorem run_of_le {F : ℕ → Bounded ε α} (hF : ∀ n, Below (F n) (F (n + 1))) {n m : ℕ}
    (hnm : n ≤ m) : Below (F n) (F m) := by
  induction hnm with
  | refl => exact Below.refl _
  | step _ ih => exact fun r h => hF _ r (ih r h)

/-! ## Loops -/

section
variable {δ : Type} {p q : α → Bounded ε Bool} {h k : α → Bounded ε β} {xs : List α}

/-- The search went through all the items. -/
theorem anyM_returns_false : (xs.anyM p).Returns false ↔ ∀ x ∈ xs, (p x).Returns false := by
  induction xs with
  | nil => simp
  | cons x xs ih =>
      rw [List.anyM_cons, returns_bind, List.forall_mem_cons, ← ih]
      refine ⟨?_, fun ⟨hx, hxs⟩ => ⟨false, hx, hxs⟩⟩
      rintro ⟨b, hb, h⟩
      cases b with
      | false => exact ⟨hb, h⟩
      | true => simp at h

theorem anyM_returns_true (htrue : (xs.anyM p).Returns true) : ∃ x ∈ xs, (p x).Returns true := by
  induction xs with
  | nil => simp at htrue
  | cons x xs ih =>
      rw [List.anyM_cons, returns_bind] at htrue
      obtain ⟨b, hb, hrest⟩ := htrue
      cases b with
      | true => exact ⟨x, List.mem_cons_self, hb⟩
      | false =>
          obtain ⟨y, hy, htrue⟩ := ih hrest
          exact ⟨y, List.mem_cons_of_mem x hy, htrue⟩

/-- Tests that agree on corresponding items make searches that agree. -/
theorem anyM_rel {ys : List δ} {q : δ → Bounded ε Bool} {b : Bool}
    (hxy : List.Forall₂ (fun x y => ∀ b, (p x).Returns b → (q y).Returns b) xs ys)
    (hb : (xs.anyM p).Returns b) : (ys.anyM q).Returns b := by
  induction hxy with
  | nil => exact hb
  | cons hx _ ih =>
      rw [List.anyM_cons, returns_bind] at hb ⊢
      obtain ⟨c, hc, hrest⟩ := hb
      refine ⟨c, hx c hc, ?_⟩
      cases c with
      | true => exact hrest
      | false => exact ih hrest

theorem anyM_returns_congr {ys : List δ} {q : δ → Bounded ε Bool} {b : Bool}
    (hxy : List.Forall₂ (fun x y => ∀ b, (p x).Returns b ↔ (q y).Returns b) xs ys) :
    (xs.anyM p).Returns b ↔ (ys.anyM q).Returns b :=
  ⟨anyM_rel (hxy.imp fun _ _ h b => (h b).mp),
    anyM_rel (hxy.flip.imp fun _ _ h b => (h b).mpr)⟩

theorem anyM_returns (hp : ∀ x ∈ xs, ∃ b, (p x).Returns b) : ∃ b, (xs.anyM p).Returns b := by
  induction xs with
  | nil => exact ⟨false, by simp⟩
  | cons x xs ih =>
      obtain ⟨⟨b, hb⟩, hxs⟩ := List.forall_mem_cons.mp hp
      obtain ⟨c, hc⟩ := ih hxs
      rw [List.anyM_cons]
      cases b with
      | true => exact ⟨true, returns_bind.mpr ⟨true, hb, by simp⟩⟩
      | false => exact ⟨c, returns_bind.mpr ⟨false, hb, hc⟩⟩

theorem anyM_ends (hends : ∀ x ∈ xs, (p x).Ends) : (xs.anyM p).Ends := by
  induction xs with
  | nil => exact ends_pure
  | cons x xs ih =>
      obtain ⟨hx, hxs⟩ := List.forall_mem_cons.mp hends
      rw [List.anyM_cons]
      refine hx.bind fun b _ => ?_
      cases b with
      | true => exact ends_pure
      | false => exact ih hxs

theorem anyM_below (hpq : ∀ x, Below (p x) (q x)) : Below (xs.anyM p) (xs.anyM q) := by
  induction xs with
  | nil => exact Below.refl _
  | cons x xs ih =>
      rw [List.anyM_cons, List.anyM_cons]
      refine (hpq x).bind fun b => ?_
      cases b with
      | true => exact Below.refl _
      | false => exact ih

theorem mapM_returns {ys : List β} :
    (xs.mapM h).Returns ys ↔ List.Forall₂ (fun x y => (h x).Returns y) xs ys := by
  induction xs generalizing ys with
  | nil => rw [List.mapM_nil, returns_pure, List.forall₂_nil_left_iff, eq_comm]
  | cons x xs ih =>
      rw [List.mapM_cons, List.forall₂_cons_left_iff]
      simp only [returns_bind, returns_pure, ih]
      refine ⟨?_, ?_⟩
      · rintro ⟨y, hy, zs, hzs, rfl⟩
        exact ⟨y, zs, hy, hzs, rfl⟩
      · rintro ⟨y, zs, hy, hzs, rfl⟩
        exact ⟨y, hy, zs, hzs, rfl⟩

theorem mapM_ends (hends : ∀ x ∈ xs, (h x).Ends) : (xs.mapM h).Ends := by
  induction xs with
  | nil => exact ends_pure
  | cons x xs ih =>
      obtain ⟨hx, hxs⟩ := List.forall_mem_cons.mp hends
      rw [List.mapM_cons]
      exact hx.bind fun _ _ => (ih hxs).bind fun _ _ => ends_pure

theorem mapM_below (hhk : ∀ x, Below (h x) (k x)) : Below (xs.mapM h) (xs.mapM k) := by
  induction xs with
  | nil => exact Below.refl _
  | cons x xs ih =>
      rw [List.mapM_cons, List.mapM_cons]
      exact (hhk x).bind fun _ => ih.bind fun _ => Below.refl _

theorem foldlM_returns_congr {s s' : γ} {l m : γ → α → Bounded ε γ}
    (hlm : ∀ s x s', (l s x).Returns s' ↔ (m s x).Returns s') :
    (xs.foldlM l s).Returns s' ↔ (xs.foldlM m s).Returns s' := by
  induction xs generalizing s with
  | nil => exact Iff.rfl
  | cons x xs ih =>
      rw [List.foldlM_cons, List.foldlM_cons, returns_bind, returns_bind]
      exact exists_congr fun s₁ => and_congr (hlm s x s₁) ih

theorem foldlM_below {s : γ} {l m : γ → α → Bounded ε γ} (hlm : ∀ s x, Below (l s x) (m s x)) :
    Below (xs.foldlM l s) (xs.foldlM m s) := by
  induction xs generalizing s with
  | nil => exact Below.refl _
  | cons x xs ih =>
      rw [List.foldlM_cons, List.foldlM_cons]
      exact (hlm s x).bind fun _ => ih

end

/-- Bounds that are large enough for each item are there for all of a list. -/
theorem exists_bound {P : ℕ → α → Prop} (hmono : ∀ n m x, n ≤ m → P n x → P m x) {xs : List α}
    (h : ∀ x ∈ xs, ∃ n, P n x) : ∃ n, ∀ x ∈ xs, P n x := by
  induction xs with
  | nil => exact ⟨0, by simp⟩
  | cons x xs ih =>
      obtain ⟨⟨n, hn⟩, hxs⟩ := List.forall_mem_cons.mp h
      obtain ⟨m, hm⟩ := ih hxs
      refine ⟨max n m, List.forall_mem_cons.mpr ⟨?_, fun y hy => ?_⟩⟩
      · exact hmono n _ x (Nat.le_max_left n m) hn
      · exact hmono m _ y (Nat.le_max_right n m) (hm y hy)

/-- A loop over computations that return for large enough bounds. -/
theorem exists_mapM_returns {F : ℕ → α → Bounded ε β} (hF : ∀ n x, Below (F n x) (F (n + 1) x))
    {xs : List α} {ys : List β} (h : List.Forall₂ (fun x y => ∃ n, (F n x).Returns y) xs ys) :
    ∃ n, (xs.mapM (F n)).Returns ys := by
  simp only [mapM_returns]
  induction h with
  | nil => exact ⟨0, .nil⟩
  | cons hx _ ih =>
      obtain ⟨n, hn⟩ := hx
      obtain ⟨m, hm⟩ := ih
      have hle : ∀ {k l x y}, k ≤ l → (F k x).Returns y → (F l x).Returns y :=
        fun hkl h => run_of_le (fun n => hF n _) hkl _ h
      exact ⟨max n m, .cons (hle (Nat.le_max_left n m) hn)
        (hm.imp fun _ _ h => hle (Nat.le_max_right n m) h)⟩

end Bounded
