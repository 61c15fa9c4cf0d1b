import Mathlib.Data.List.Find
import Mathlib.Data.List.Forall2
import Mathlib.Data.Ordering.Basic

/-!
# Comparisons

Where `a` is not above `b` and `b` not above `c`, the two comparisons determine how `a` compares
with `c`.  For a comparison that is made part by part, or of lists entry by entry, this follows
from the parts.

A type that is to be the key of a map has an equality, an order and a hash of its own; they
are lawful if all three go by one comparison.
-/

namespace Comparison

/-- How `a` compares with `c` is made of how `a` and `b`, and `b` and `c`, compare. -/
def Composes (ab bc ac : Ordering) : Prop := ab.isLE → bc.isLE → ac = ab.then bc

variable {ab bc ac ab' bc' ac' : Ordering}

theorem composes {α : Type*} (cmp : α → α → Ordering) [Std.TransCmp cmp] (a b c : α) :
    Composes (cmp a b) (cmp b c) (cmp a c) := by
  intro hab hbc
  cases hab' : cmp a b with
  | gt =>
      rw [hab'] at hab
      cases hab
  | lt => exact Std.TransCmp.lt_of_lt_of_isLE hab' hbc
  | eq => exact Std.TransCmp.congr_left hab'

theorem swap_compareLex {α : Type*} {cmp : α → α → Ordering} {as bs : List α}
    (h : ∀ a ∈ as, ∀ b, (cmp a b).swap = cmp b a) :
    (List.compareLex cmp as bs).swap = List.compareLex cmp bs as := by
  induction as generalizing bs with
  | nil => cases bs <;> rfl
  | cons a as ih =>
      cases bs with
      | nil => rfl
      | cons b bs =>
          obtain ⟨ha, has⟩ := List.forall_mem_cons.mp h
          rw [List.compareLex_cons_cons, List.compareLex_cons_cons, Ordering.swap_then, ha, ih has]

/-- Lists between which the comparison decides nothing. -/
theorem compareLex_eq_eq {α : Type*} {cmp : α → α → Ordering} {as bs : List α} :
    List.compareLex cmp as bs = .eq ↔ List.Forall₂ (fun a b => cmp a b = .eq) as bs := by
  induction as generalizing bs with
  | nil => cases bs <;> simp [List.compareLex_nil_cons, List.compareLex_nil_nil]
  | cons a as ih =>
      cases bs with
      | nil => simp [List.compareLex_cons_nil]
      | cons b bs => rw [List.compareLex_cons_cons, Ordering.then_eq_eq, ih, List.forall₂_cons]

/-- Two relations that agree on the entries of two lists. -/
theorem forall₂_congr_of_mem {α β : Type*} {R S : α → β → Prop} {as : List α} {bs : List β}
    (h : ∀ a ∈ as, ∀ b ∈ bs, (R a b ↔ S a b)) : List.Forall₂ R as bs ↔ List.Forall₂ S as bs := by
  rw [List.forall₂_iff_zip, List.forall₂_iff_zip]
  refine and_congr_right fun _ => forall₂_congr fun a b => forall_congr' fun hab => ?_
  exact h a (List.of_mem_zip hab).1 b (List.of_mem_zip hab).2

namespace Composes

theorem lt_trans (h : Composes ab bc ac) (hab : ab = .lt) (hbc : bc = .lt) : ac = .lt := by
  subst hab hbc
  exact h rfl rfl

theorem lt_of_lt_of_eq (h : Composes ab bc ac) (hab : ab = .lt) (hbc : bc = .eq) : ac = .lt := by
  subst hab hbc
  exact h rfl rfl

/-- First one comparison, and where that decides nothing another. -/
theorem «then» (h : Composes ab bc ac) (h' : ab = .eq → bc = .eq → Composes ab' bc' ac') :
    Composes (ab.then ab') (bc.then bc') (ac.then ac') := by
  intro hab hbc
  obtain ⟨hab, hrest⟩ := Ordering.isLE_then_iff_and.mp hab
  obtain ⟨hbc, hrest'⟩ := Ordering.isLE_then_iff_and.mp hbc
  rw [h hab hbc]
  cases ab with
  | gt => cases hab
  | lt => rfl
  | eq =>
      cases bc with
      | gt => cases hbc
      | lt =>
          cases ab' with
          | gt => exact absurd hrest (by decide)
          | lt | eq => rfl
      | eq => exact h' rfl rfl (hrest.resolve_left nofun) (hrest'.resolve_left nofun)

/-- The entries of the lists are of a kind on which the comparison is as it should be. -/
theorem compareLex {α : Type*} {cmp : α → α → Ordering} {P : α → Prop} {as bs cs : List α}
    (h : ∀ a ∈ as, ∀ b c, P a → P b → P c → Composes (cmp a b) (cmp b c) (cmp a c))
    (has : ∀ a ∈ as, P a) (hbs : ∀ b ∈ bs, P b) (hcs : ∀ c ∈ cs, P c) :
    Composes (List.compareLex cmp as bs) (List.compareLex cmp bs cs)
      (List.compareLex cmp as cs) := by
  induction as generalizing bs cs with
  | nil =>
      cases bs with
      | nil => exact fun _ _ => rfl
      | cons b bs =>
          cases cs with
          | nil => exact fun _ hbc => absurd hbc (by simp [List.compareLex_cons_nil])
          | cons c cs => exact fun _ _ => rfl
  | cons a as ih =>
      cases bs with
      | nil => exact fun hab _ => absurd hab (by simp [List.compareLex_cons_nil])
      | cons b bs =>
          cases cs with
          | nil => exact fun _ hbc => absurd hbc (by simp [List.compareLex_cons_nil])
          | cons c cs =>
              obtain ⟨h, hrest⟩ := List.forall_mem_cons.mp h
              obtain ⟨ha, has⟩ := List.forall_mem_cons.mp has
              obtain ⟨hb, hbs⟩ := List.forall_mem_cons.mp hbs
              obtain ⟨hc, hcs⟩ := List.forall_mem_cons.mp hcs
              simp only [List.compareLex_cons_cons]
              exact (h b c ha hb hc).then fun _ _ => ih hrest has hbs hcs

end Composes

/-! ## Keys -/

/-- An equality, an order and a hash are lawful on the keys that satisfy `P`: the equality is an
equivalence, the order is strict, exactly one of `a < b`, `a = b` and `b < a` holds of any two
keys, and equal keys have one hash. -/
structure LawfulKeys {α η : Type*} (P : α → Prop) (eq lt : α → α → Bool) (hash : α → η) : Prop where
  refl : ∀ a, P a → eq a a = true
  symm : ∀ a b, P a → P b → eq a b = true → eq b a = true
  trans : ∀ a b c, P a → P b → P c → eq a b = true → eq b c = true → eq a c = true
  lt_irrefl : ∀ a, P a → lt a a = false
  lt_trans : ∀ a b c, P a → P b → P c → lt a b = true → lt b c = true → lt a c = true
  exclusive : ∀ a b, P a → P b → lt a b = true → eq a b = false ∧ lt b a = false
  exhaustive : ∀ a b, P a → P b → lt a b = true ∨ eq a b = true ∨ lt b a = true
  hash_eq : ∀ a b, P a → P b → eq a b = true → hash a = hash b

/-- So they are when they go by one comparison. -/
theorem LawfulKeys.of_compare {α η : Type*} {P : α → Prop} {eq lt : α → α → Bool} {hash : α → η}
    {cmp : α → α → Ordering} (hswap : ∀ a b, P a → P b → (cmp a b).swap = cmp b a)
    (hcomposes : ∀ a b c, P a → P b → P c → Composes (cmp a b) (cmp b c) (cmp a c))
    (heq : ∀ a b, P a → P b → (eq a b = true ↔ cmp a b = .eq))
    (hlt : ∀ a b, P a → P b → (lt a b = true ↔ cmp a b = .lt))
    (hhash : ∀ a b, P a → P b → eq a b = true → hash a = hash b) : LawfulKeys P eq lt hash where
  refl a ha := by
    have hself := hswap a a ha ha
    rw [heq a a ha ha]
    revert hself
    cases cmp a a <;> decide
  symm a b ha hb h := by
    rw [heq a b ha hb] at h
    rw [heq b a hb ha, ← hswap a b ha hb, h]
    rfl
  trans a b c ha hb hc hab hbc := by
    rw [heq a b ha hb] at hab
    rw [heq b c hb hc] at hbc
    rw [heq a c ha hc, hcomposes a b c ha hb hc (by rw [hab]; rfl) (by rw [hbc]; rfl), hab, hbc]
    rfl
  lt_irrefl a ha := by
    have hself := hswap a a ha ha
    rw [Bool.eq_false_iff, ne_eq, hlt a a ha ha]
    revert hself
    cases cmp a a <;> decide
  lt_trans a b c ha hb hc hab hbc := by
    rw [hlt a b ha hb] at hab
    rw [hlt b c hb hc] at hbc
    rw [hlt a c ha hc]
    exact (hcomposes a b c ha hb hc).lt_trans hab hbc
  exclusive a b ha hb h := by
    rw [hlt a b ha hb] at h
    rw [Bool.eq_false_iff, Bool.eq_false_iff, ne_eq, ne_eq, heq a b ha hb, hlt b a hb ha,
      ← hswap a b ha hb, h]
    decide
  exhaustive a b ha hb := by
    rw [hlt a b ha hb, heq a b ha hb, hlt b a hb ha, ← hswap a b ha hb]
    cases cmp a b <;> decide
  hash_eq := hhash

/-- `o` is how `a` and `b` compare by an equality and an order, whichever comes first. -/
structure Reflects {α : Type*} (eq lt : α → α → Bool) (a b : α) (o : Ordering) : Prop where
  equal : eq a b = (o == .eq)
  equal_symm : eq b a = (o == .eq)
  less : lt a b = (o == .lt)
  greater : lt b a = (o == .gt)

/-- The comparison by an order alone. -/
def byLt {α : Type*} (lt : α → α → Bool) (a b : α) : Ordering :=
  if lt a b then .lt else if lt b a then .gt else .eq

section
variable {α η : Type*} {P : α → Prop} {eq lt : α → α → Bool} {hash : α → η} {a b c : α}
  {o o' : Ordering}

namespace Reflects

theorem swap (h : Reflects eq lt a b o) : Reflects eq lt b a o.swap where
  equal := by
    rw [h.equal_symm]
    cases o <;> rfl
  equal_symm := by
    rw [h.equal]
    cases o <;> rfl
  less := by
    rw [h.greater]
    cases o <;> rfl
  greater := by
    rw [h.less]
    cases o <;> rfl

theorem unique (h : Reflects eq lt a b o) (h' : Reflects eq lt a b o') : o = o' := by
  have hless := h.less.symm.trans h'.less
  have hgreater := h.greater.symm.trans h'.greater
  revert hless hgreater
  cases o <;> cases o' <;> decide

/-- Nothing is less than itself. -/
theorem eq_of_self (h : Reflects eq lt a a o) : o = .eq := by
  have hself := h.less.symm.trans h.greater
  revert hself
  cases o <;> decide

theorem equal_iff (h : Reflects eq lt a b o) : eq a b = true ↔ o = .eq := by
  rw [h.equal, beq_iff_eq]

theorem less_iff (h : Reflects eq lt a b o) : lt a b = true ↔ o = .lt := by
  rw [h.less, beq_iff_eq]

/-- Where the order is asked both ways, it need not be asked about equality. -/
theorem less_or_not_less (h : Reflects eq lt a b o) (rest : Bool) :
    (lt a b || (!lt b a && rest)) = (lt a b || (eq a b && rest)) := by
  rw [h.equal, h.less, h.greater]
  cases o <;> rfl

/-- First by one equality and order, and where these tell nothing apart by others. -/
theorem lex {β γ : Type*} {eq' lt' : β → β → Bool} {eq'' lt'' : γ → γ → Bool} {c d : β} {p q : γ}
    (h : Reflects eq lt a b o) (h' : o = .eq → Reflects eq' lt' c d o')
    (heq : eq'' p q = (eq a b && eq' c d)) (heq_symm : eq'' q p = (eq b a && eq' d c))
    (hlt : lt'' p q = (lt a b || (eq a b && lt' c d)))
    (hgt : lt'' q p = (lt b a || (eq b a && lt' d c))) : Reflects eq'' lt'' p q (o.then o') := by
  rw [h.equal] at heq hlt
  rw [h.equal_symm] at heq_symm hgt
  rw [h.less] at hlt
  rw [h.greater] at hgt
  cases o with
  | lt | gt => exact ⟨heq, heq_symm, hlt, hgt⟩
  | eq =>
      have hrest := h' rfl
      exact ⟨heq.trans hrest.equal, heq_symm.trans hrest.equal_symm, hlt.trans hrest.less,
        hgt.trans hrest.greater⟩

/-- What is compared by something that it is made of. -/
theorem map {γ : Type*} {eq' lt' : γ → γ → Bool} (h : Reflects eq lt a b o) (f : α → γ)
    (heq : ∀ a b, eq' (f a) (f b) = eq a b) (hlt : ∀ a b, lt' (f a) (f b) = lt a b) :
    Reflects eq' lt' (f a) (f b) o where
  equal := (heq a b).trans h.equal
  equal_symm := (heq b a).trans h.equal_symm
  less := (hlt a b).trans h.less
  greater := (hlt b a).trans h.greater

/-- What is known to be one is not looked at. -/
theorem shortcut {same : α → α → Bool} (h : Reflects eq lt a b o)
    (hsame : ∀ a b, same a b = true → a = b) :
    Reflects (fun a b => same a b || eq a b) (fun a b => !same a b && lt a b) a b o := by
  by_cases hab : a = b
  · subst hab
    obtain rfl := h.eq_of_self
    have hequal : (same a a || eq a a) = true := by rw [h.equal, beq_self_eq_true, Bool.or_true]
    have hless : (!same a a && lt a a) = false := by
      rw [h.less]
      exact Bool.and_false _
    exact ⟨hequal, hequal, hless, hless⟩
  · have hne : same a b = false := Bool.eq_false_iff.mpr fun hone => hab (hsame a b hone)
    have hne_symm : same b a = false :=
      Bool.eq_false_iff.mpr fun hone => hab (hsame b a hone).symm
    constructor
    · rw [hne, Bool.false_or, h.equal]
    · rw [hne_symm, Bool.false_or, h.equal_symm]
    · rw [hne, Bool.not_false, Bool.true_and, h.less]
    · rw [hne_symm, Bool.not_false, Bool.true_and, h.greater]

end Reflects

namespace LawfulKeys

/-- The order alone tells how two keys compare. -/
theorem reflects (h : LawfulKeys P eq lt hash) (ha : P a) (hb : P b) :
    Reflects eq lt a b (byLt lt a b) := by
  have hsymm : eq b a = eq a b := Bool.eq_iff_iff.mpr ⟨h.symm b a hb ha, h.symm a b ha hb⟩
  cases hlt : lt a b with
  | true =>
      obtain ⟨heq, hgt⟩ := h.exclusive a b ha hb hlt
      rw [byLt, if_pos hlt]
      exact ⟨heq, hsymm.trans heq, hlt, hgt⟩
  | false =>
      cases hgt : lt b a with
      | true =>
          have heq := (h.exclusive b a hb ha hgt).1
          rw [byLt, hlt, if_neg (by decide), if_pos hgt]
          exact ⟨hsymm.symm.trans heq, heq, hlt, hgt⟩
      | false =>
          have hall := h.exhaustive a b ha hb
          rw [hlt, hgt] at hall
          have heq : eq a b = true := (hall.resolve_left nofun).resolve_right nofun
          rw [byLt, hlt, hgt, if_neg (by decide), if_neg (by decide)]
          exact ⟨heq, hsymm.trans heq, hlt, hgt⟩

theorem lt_of_eq_of_lt (h : LawfulKeys P eq lt hash) (ha : P a) (hb : P b) (hc : P c)
    (hab : eq a b = true) (hbc : lt b c = true) : lt a c = true := by
  have hba := h.symm a b ha hb hab
  rcases h.exhaustive a c ha hc with hac | hac | hca
  · exact hac
  · have hne := (h.exclusive b c hb hc hbc).1
    rw [h.trans b a c hb ha hc hba hac] at hne
    cases hne
  · have hne := (h.exclusive b a hb ha (h.lt_trans b c a hb hc ha hbc hca)).1
    rw [hba] at hne
    cases hne

theorem lt_of_lt_of_eq (h : LawfulKeys P eq lt hash) (ha : P a) (hb : P b) (hc : P c)
    (hab : lt a b = true) (hbc : eq b c = true) : lt a c = true := by
  have hcb := h.symm b c hb hc hbc
  rcases h.exhaustive a c ha hc with hac | hac | hca
  · exact hac
  · have hne := (h.exclusive a b ha hb hab).1
    rw [h.trans a c b ha hc hb hac hcb] at hne
    cases hne
  · have hne := (h.exclusive c b hc hb (h.lt_trans c a b hc ha hb hca hab)).1
    rw [hcb] at hne
    cases hne

theorem composes (h : LawfulKeys P eq lt hash) (ha : P a) (hb : P b) (hc : P c) :
    Composes (byLt lt a b) (byLt lt b c) (byLt lt a c) := by
  have hrab := h.reflects ha hb
  have hrbc := h.reflects hb hc
  have hrac := h.reflects ha hc
  intro hab hbc
  cases hoab : byLt lt a b with
  | gt =>
      rw [hoab] at hab
      cases hab
  | lt =>
      rw [hoab] at hrab
      have hless : lt a c = true := by
        cases hobc : byLt lt b c with
        | gt =>
            rw [hobc] at hbc
            cases hbc
        | lt =>
            rw [hobc] at hrbc
            exact h.lt_trans a b c ha hb hc hrab.less hrbc.less
        | eq =>
            rw [hobc] at hrbc
            exact h.lt_of_lt_of_eq ha hb hc hrab.less hrbc.equal
      rw [hrac.less, beq_iff_eq] at hless
      rw [hless]
      rfl
  | eq =>
      rw [hoab] at hrab
      cases hobc : byLt lt b c with
      | gt =>
          rw [hobc] at hbc
          cases hbc
      | lt =>
          rw [hobc] at hrbc
          have hless := h.lt_of_eq_of_lt ha hb hc hrab.equal hrbc.less
          rw [hrac.less, beq_iff_eq] at hless
          exact hless
      | eq =>
          rw [hobc] at hrbc
          exact hrac.equal_iff.mp (h.trans a b c ha hb hc hrab.equal hrbc.equal)

/-- It is enough that some comparison reflects the equality and the order. -/
theorem of_reflects (cmp : α → α → Ordering)
    (hreflects : ∀ a b, P a → P b → Reflects eq lt a b (cmp a b))
    (hcomposes : ∀ a b c, P a → P b → P c → Composes (cmp a b) (cmp b c) (cmp a c))
    (hhash : ∀ a b, P a → P b → eq a b = true → hash a = hash b) : LawfulKeys P eq lt hash := by
  have hswap a b (ha : P a) (hb : P b) : (cmp a b).swap = cmp b a :=
    (hreflects a b ha hb).swap.unique (hreflects b a hb ha)
  apply LawfulKeys.of_compare hswap hcomposes
  · exact fun a b ha hb => (hreflects a b ha hb).equal_iff
  · exact fun a b ha hb => (hreflects a b ha hb).less_iff
  · exact hhash

/-- Keys that are compared by what they map to. -/
theorem comap {β : Type*} (h : LawfulKeys P eq lt hash) (f : β → α) :
    LawfulKeys (fun x => P (f x)) (fun x y => eq (f x) (f y)) (fun x y => lt (f x) (f y))
      (fun x => hash (f x)) where
  refl x := h.refl (f x)
  symm x y := h.symm (f x) (f y)
  trans x y z := h.trans (f x) (f y) (f z)
  lt_irrefl x := h.lt_irrefl (f x)
  lt_trans x y z := h.lt_trans (f x) (f y) (f z)
  exclusive x y := h.exclusive (f x) (f y)
  exhaustive x y := h.exhaustive (f x) (f y)
  hash_eq x y := h.hash_eq (f x) (f y)

/-- Keys that are told apart, and ordered, by what they map to. -/
theorem of_injective {β : Type*} [LT β] [LE β] [DecidableLT β] [Std.IsLinearOrder β]
    [Std.LawfulOrderLT β] [BEq α] [LawfulBEq α] {f : α → β} (hf : Function.Injective f)
    (hash : α → η) :
    LawfulKeys (fun _ => True) (· == ·) (fun a b : α => decide (f a < f b)) hash where
  refl a _ := beq_self_eq_true a
  symm a b _ _ h := beq_iff_eq.mpr (beq_iff_eq.mp h).symm
  trans a b c _ _ _ hab hbc := beq_iff_eq.mpr ((beq_iff_eq.mp hab).trans (beq_iff_eq.mp hbc))
  lt_irrefl a _ := decide_eq_false Std.lt_irrefl
  lt_trans a b c _ _ _ hab hbc := by
    rw [decide_eq_true_eq] at hab hbc ⊢
    exact Std.lt_trans hab hbc
  exclusive a b _ _ h := by
    rw [decide_eq_true_eq] at h
    refine ⟨beq_eq_false_iff_ne.mpr fun heq => ?_, decide_eq_false fun hgt => ?_⟩
    · rw [heq] at h
      exact Std.lt_irrefl h
    · exact Std.lt_irrefl (Std.lt_trans h hgt)
  exhaustive a b _ _ := by
    rw [decide_eq_true_eq, decide_eq_true_eq, beq_iff_eq, ← hf.eq_iff]
    exact Std.lt_trichotomy (f a) (f b)
  hash_eq a b _ _ h := congrArg hash (beq_iff_eq.mp h)

end LawfulKeys

/-! ## Lookups -/

/-- The key of a list that is equal to `k`. -/
def findEqual (eq : α → α → Bool) (k : α) (keys : List α) : Option α := keys.find? (eq · k)

/-- In a hash map: only the keys in the bucket of `k`'s hash are looked at. -/
def findHashed (eq : α → α → Bool) (hash : α → η) (bucket : η → ℕ) (k : α) (keys : List α) :
    Option α :=
  (keys.filter fun a => bucket (hash a) == bucket (hash k)).find? (eq · k)

/-- In an ordered map: the first key that is not less than `k`, unless `k` is less than it. -/
def findOrdered (lt : α → α → Bool) (k : α) (keys : List α) : Option α :=
  (keys.find? (!lt · k)).filter (!lt k ·)

namespace LawfulKeys

theorem findHashed_eq {k : α} {keys : List α} (h : LawfulKeys P eq lt hash) (hk : P k)
    (hkeys : ∀ a ∈ keys, P a) (bucket : η → ℕ) :
    findHashed eq hash bucket k keys = findEqual eq k keys := by
  rw [findHashed, List.find?_filter, findEqual]
  refine List.find?_congr fun a ha => ?_
  cases heq : eq a k with
  | false => simp
  | true => simp [h.hash_eq a k (hkeys a ha) hk heq]

theorem findOrdered_eq {k : α} {keys : List α} (h : LawfulKeys P eq lt hash) (hk : P k)
    (hkeys : ∀ a ∈ keys, P a) (hsorted : keys.Pairwise (lt · · = true)) :
    findOrdered lt k keys = findEqual eq k keys := by
  induction hsorted with
  | nil => rfl
  | @cons a keys hless _ ih =>
      obtain ⟨ha, hkeys⟩ := List.forall_mem_cons.mp hkeys
      have hcmp := h.reflects ha hk
      cases ho : byLt lt a k with
      | lt =>
          rw [ho] at hcmp
          have ih := ih hkeys
          rw [findOrdered, findEqual] at ih ⊢
          rw [List.find?_cons_of_neg (by simp [hcmp.less]),
            List.find?_cons_of_neg (by simp [hcmp.equal]), ih]
      | eq =>
          rw [ho] at hcmp
          rw [findOrdered, findEqual, List.find?_cons_of_pos (by simp [hcmp.less]),
            List.find?_cons_of_pos (by simp [hcmp.equal])]
          exact Option.filter_some_pos (by simp [hcmp.greater])
      | gt =>
          rw [ho] at hcmp
          -- All keys from here on are greater than `k`.
          have hnone : ∀ b ∈ a :: keys, ¬ eq b k = true := by
            intro b hb heq
            rcases List.mem_cons.mp hb with rfl | hb
            · rw [hcmp.equal] at heq
              cases heq
            · have hkb := h.lt_trans k a b hk ha (hkeys b hb) hcmp.greater (hless b hb)
              have hne := (h.exclusive k b hk (hkeys b hb) hkb).1
              rw [h.symm b k (hkeys b hb) hk heq] at hne
              cases hne
          rw [findOrdered, findEqual, List.find?_cons_of_pos (by simp [hcmp.less]),
            List.find?_eq_none.mpr hnone]
          exact Option.filter_some_neg (by simp [hcmp.greater])

end LawfulKeys

end

end Comparison
