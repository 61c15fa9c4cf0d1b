import Cradle.Typing.DiffApply

/-!
# What `compute_value_diff` computes

What `detect_insertion` finds, what the loop over two maps does, and where the items of a
diff are.  From this follows when a diff can be computed at all: the encoded size of two
maps is an exception if a string is too long, and `detect_insertion` can read beyond the
end of an array.
-/

open Cradle.Dynamic

namespace Cradle

variable {abi : Abi}

/-- The items of two lists are equal one by one. -/
abbrev AllEqual : List Dynamic → List Dynamic → Prop := List.Forall₂ fun x y => x.equals y = true

/-- The fields of two lists are equal one by one. -/
abbrev FieldsEqual : List (Dynamic × Dynamic) → List (Dynamic × Dynamic) → Prop :=
  List.Forall₂ fun f g => f.1.equals g.1 = true ∧ f.2.equals g.2 = true

/-! ## What `detect_insertion` finds -/

theorem matchRest_true {a b : List Dynamic} (h : matchRest a b = .ok true) :
    ∃ b₁ b₂, b = b₁ ++ b₂ ∧ AllEqual a b₁ := by
  induction a generalizing b with
  | nil => exact ⟨[], b, rfl, .nil⟩
  | cons x a ih =>
      cases b with
      | nil => simp [matchRest] at h
      | cons y b =>
          simp only [matchRest] at h
          by_cases hxy : x.equals y = true
          · rw [if_pos hxy] at h
            obtain ⟨b₁, b₂, rfl, heq⟩ := ih h
            exact ⟨y :: b₁, b₂, rfl, .cons hxy heq⟩
          · rw [if_neg hxy] at h
            simp at h

/-- `b` is `a` with `count` items inserted, and perhaps more items at the end. -/
structure Detected (a b : List Dynamic) (index count : ℕ) (a₁ a₂ b₁ b₂ b₃ b₄ : List Dynamic) :
    Prop where
  left : a = a₁ ++ a₂
  right : b = b₁ ++ b₂ ++ b₃ ++ b₄
  index : b₁.length = index
  count : b₂.length = count
  before : AllEqual a₁ b₁
  after : AllEqual a₂ b₃

theorem detectFrom_some {i : ℕ} {a b : List Dynamic} {ins : InsertionDescription}
    (h : detectFrom i a b = .ok (some ins)) :
    ∃ k a₁ a₂ b₁ b₂ b₃ b₄, ins.index = i + k ∧ Detected a b k ins.count a₁ a₂ b₁ b₂ b₃ b₄ := by
  induction a generalizing i b with
  | nil =>
      simp only [detectFrom, Except.ok.injEq, Option.some.injEq] at h
      subst h
      exact ⟨0, [], [], [], b, [], [], rfl, ⟨rfl, by simp, rfl, rfl, .nil, .nil⟩⟩
  | cons x a ih =>
      cases b with
      | nil => simp [detectFrom] at h
      | cons y b =>
          simp only [detectFrom] at h
          by_cases hxy : x.equals y = true
          · rw [if_pos hxy] at h
            obtain ⟨k, a₁, a₂, b₁, b₂, b₃, b₄, hk, hd⟩ := ih h
            refine ⟨k + 1, x :: a₁, a₂, y :: b₁, b₂, b₃, b₄, by omega, ?_⟩
            exact ⟨by rw [hd.left]; rfl, by rw [hd.right]; rfl, by rw [List.length_cons, hd.index],
              hd.count, .cons hxy hd.before, hd.after⟩
          · rw [if_neg hxy] at h
            cases hj : b.findIdx? (x.equals ·) with
            | none => simp [hj] at h
            | some j =>
                have hlt : j < b.length := (List.findIdx?_eq_some_iff_findIdx_eq.mp hj).1
                simp only [hj] at h
                obtain ⟨found, hmatch, hend⟩ := Except.bind_eq_ok.mp h
                cases found with
                | false => simp [pure, Except.pure] at hend
                | true =>
                    simp only [if_true, pure, Except.pure, Except.ok.injEq,
                      Option.some.injEq] at hend
                    subst hend
                    obtain ⟨b₃, b₄, hdrop, heq⟩ := matchRest_true hmatch
                    refine ⟨0, [], x :: a, [], y :: b.take j, b₃, b₄, rfl, rfl, ?_, rfl, ?_,
                      .nil, heq⟩
                    · rw [List.nil_append, List.append_assoc, ← hdrop, List.cons_append,
                        List.take_append_drop]
                    · simp only [List.length_cons, List.length_take]
                      omega

theorem detectInsertion_some {a b : List Dynamic} {ins : InsertionDescription}
    (h : detectInsertion a b = .ok (some ins)) :
    ∃ a₁ a₂ b₁ b₂ b₃ b₄, Detected a b ins.index ins.count a₁ a₂ b₁ b₂ b₃ b₄ := by
  obtain ⟨k, a₁, a₂, b₁, b₂, b₃, b₄, hk, hd⟩ := detectFrom_some h
  rw [Nat.zero_add] at hk
  rw [hk]
  exact ⟨a₁, a₂, b₁, b₂, b₃, b₄, hd⟩

namespace Detected

variable {a b a₁ a₂ b₁ b₂ b₃ b₄ : List Dynamic} {index count : ℕ}

/-- The items that are found to be inserted. -/
theorem inserted (h : Detected a b index count a₁ a₂ b₁ b₂ b₃ b₄) :
    (b.drop index).take count = b₂ := by
  rw [h.right, ← h.index, ← h.count, List.append_assoc, List.append_assoc, List.drop_left,
    List.take_left]

theorem end_eq_nil_of_length (h : Detected a b index count a₁ a₂ b₁ b₂ b₃ b₄)
    (hlen : a₁.length + a₂.length = b₁.length + b₃.length + b₄.length) : b₄ = [] := by
  have hb := h.before.length_eq
  have ha := h.after.length_eq
  apply List.length_eq_zero_iff.mp
  omega

/-- Nothing is left over at the end exactly if the sizes fit. -/
theorem end_eq_nil_iff (h : Detected a b index count a₁ a₂ b₁ b₂ b₃ b₄) :
    b₄ = [] ↔ a.length + count = b.length := by
  have hb := h.before.length_eq
  have ha := h.after.length_eq
  rw [h.left, h.right, ← h.count, ← List.length_eq_zero_iff]
  simp only [List.length_append]
  omega

end Detected

/-! ## The fields of two maps, side by side -/

/-- The run of the loop of `compute_map_diff` over the fields of two maps with strings as
keys. -/
inductive FieldWalk (abi : Abi) (path : List Dynamic) :
    List (Dynamic × Dynamic) → List (Dynamic × Dynamic) → ValueDiff → Prop
  | nil : FieldWalk abi path [] [] []
  | insert {s : Bytes} {y : Dynamic} {as bs : List (Dynamic × Dynamic)} {d : ValueDiff}
      (ha : Before s as) (hb : Before s bs) (rest : FieldWalk abi path as bs d) :
      FieldWalk abi path as ((string s, y) :: bs)
        (makeInsertItem (extendPath path (string s)) y :: d)
  | delete {s : Bytes} {x : Dynamic} {as bs : List (Dynamic × Dynamic)} {d : ValueDiff}
      (ha : Before s as) (hb : Before s bs) (rest : FieldWalk abi path as bs d) :
      FieldWalk abi path ((string s, x) :: as) bs
        (makeDeleteItem (extendPath path (string s)) x :: d)
  | both {s : Bytes} {x y : Dynamic} {as bs : List (Dynamic × Dynamic)} {c d : ValueDiff}
      (ha : Before s as) (hb : Before s bs)
      (child : computeDiffAt abi x (extendPath path (string s)) y = .ok c)
      (rest : FieldWalk abi path as bs d) :
      FieldWalk abi path ((string s, x) :: as) ((string s, y) :: bs) (c ++ d)

/-- The fields of a map with strings as keys, in their order. -/
inductive Ordered : List (Dynamic × Dynamic) → Prop
  | nil : Ordered []
  | cons {s : Bytes} {x : Dynamic} {fields : List (Dynamic × Dynamic)} (h : Before s fields)
      (rest : Ordered fields) : Ordered ((string s, x) :: fields)

theorem ordered_of_regular {fields : List (Dynamic × Dynamic)} (h : (Dynamic.map fields).Regular) :
    Ordered fields := by
  cases h with
  | map keys sorted values =>
      clear values
      induction fields with
      | nil => exact .nil
      | cons f fields ih =>
          obtain ⟨k, x⟩ := f
          obtain ⟨s, rfl⟩ : ∃ s, k = string s := keys (k, x) List.mem_cons_self
          rw [List.pairwise_cons] at sorted
          have hkeys := fun g hg => keys g (List.mem_cons_of_mem _ hg)
          refine .cons (fun g hg => ?_) (ih hkeys sorted.2)
          obtain ⟨t, ht⟩ := hkeys g hg
          have hlt := sorted.1 g hg
          rw [ht, lt_string, decide_eq_true_eq] at hlt
          exact ⟨t, ht, hlt⟩

/-- The loop of `compute_map_diff` over two maps. -/
theorem fieldWalk_of_ok {path : List Dynamic} {as bs : List (Dynamic × Dynamic)} {d : ValueDiff}
    (ha : Ordered as) (hb : Ordered bs) (h : fieldDiffs abi as path bs = .ok d) :
    FieldWalk abi path as bs d := by
  induction ha generalizing bs d with
  | nil =>
      simp only [fieldDiffs, Except.ok.injEq] at h
      subst h
      induction hb with
      | nil => exact .nil
      | cons hs _ ih => exact .insert (before_nil _) hs ih
  | @cons s x as hs ha ih =>
      simp only [fieldDiffs] at h
      induction hb generalizing d with
      | nil =>
          obtain ⟨e, he, hd⟩ := Except.bind_eq_ok.mp h
          cases hd
          exact .delete hs (before_nil s) (ih .nil he)
      | @cons t y bs ht hb ihb =>
          simp only [walkFields, equals_string, lt_string, decide_eq_true_eq] at h
          by_cases heq : s = t
          · subst heq
            rw [if_pos rfl] at h
            obtain ⟨c, hc, h⟩ := Except.bind_eq_ok.mp h
            obtain ⟨e, he, hd⟩ := Except.bind_eq_ok.mp h
            cases hd
            exact .both hs ht hc (ih hb he)
          · rw [if_neg heq] at h
            by_cases hlt : s < t
            · rw [if_pos hlt] at h
              obtain ⟨e, he, hd⟩ := Except.bind_eq_ok.mp h
              cases hd
              exact .delete hs ((ht.of_lt hlt).cons hlt) (ih (.cons ht hb) he)
            · have hgt : t < s := ((Std.lt_trichotomy s t).resolve_left hlt).resolve_left heq
              rw [if_neg hlt] at h
              obtain ⟨e, he, hd⟩ := Except.bind_eq_ok.mp h
              cases hd
              exact .insert ((hs.of_lt hgt).cons hgt) ht (ihb he)

/-! ## The cases of `compute_value_diff` -/

attribute [local simp] computeDiffAt

/-- The two values are neither both maps nor both arrays. -/
def Incomparable (a b : Dynamic) : Prop :=
  ¬ (a.type = .map ∧ b.type = .map) ∧ ¬ (a.type = .array ∧ b.type = .array)

theorem computeDiffAt_equal {a b : Dynamic} {path : List Dynamic} (h : a.equals b = true) :
    computeDiffAt abi a path b = .ok [] := by
  cases a <;> cases b <;> simp_all [computeDiffAt]

theorem computeDiffAt_incomparable {a b : Dynamic} {path : List Dynamic}
    (hne : ¬ a.equals b = true) (h : Incomparable a b) :
    computeDiffAt abi a path b = .ok [makeUpdateItem path a b] := by
  cases a with
  | map as =>
      cases b with
      | map bs => exact absurd ⟨rfl, rfl⟩ h.1
      | _ =>
          rw [computeDiffAt, if_neg hne]
          simp
  | array as =>
      cases b with
      | array bs => exact absurd ⟨rfl, rfl⟩ h.2
      | _ =>
          rw [computeDiffAt, if_neg hne]
          simp
  | _ => rw [computeDiffAt, if_neg hne] <;> simp

theorem computeDiffAt_map {as bs : List (Dynamic × Dynamic)} {path : List Dynamic}
    (hne : ¬ (Dynamic.map as).equals (.map bs) = true) :
    computeDiffAt abi (.map as) path (.map bs)
      = computeMapDiff path as bs (fieldDiffs abi as path bs) := by
  rw [computeDiffAt, if_neg hne]

theorem computeDiffAt_array {as bs : List Dynamic} {path : List Dynamic}
    (hne : ¬ (Dynamic.array as).equals (.array bs) = true) :
    computeDiffAt abi (.array as) path (.array bs)
      = computeArrayDiff abi path as bs (itemDiffs abi as path 0 bs) := by
  rw [computeDiffAt, if_neg hne]

/-- Induction along `compute_value_diff`: two values are equal, incomparable, or both maps
or both arrays, with the first value's parts to be compared. -/
theorem diff_induction {P : Dynamic → Dynamic → Prop}
    (equal : ∀ a b, a.equals b = true → P a b)
    (other : ∀ a b, ¬ a.equals b = true → Incomparable a b → P a b)
    (map : ∀ as bs, ¬ (Dynamic.map as).equals (.map bs) = true → (∀ f ∈ as, ∀ y, P f.2 y) →
      P (.map as) (.map bs))
    (array : ∀ as bs, ¬ (Dynamic.array as).equals (.array bs) = true → (∀ x ∈ as, ∀ y, P x y) →
      P (.array as) (.array bs))
    (a b : Dynamic) : P a b := by
  have scalar : ∀ a b, a.type ≠ .map → a.type ≠ .array → P a b := by
    intro a b hm ha
    by_cases h : a.equals b = true
    · exact equal _ _ h
    · exact other _ _ h ⟨fun ht => hm ht.1, fun ht => ha ht.1⟩
  induction a generalizing b with
  | map as ih =>
      by_cases h : (Dynamic.map as).equals b = true
      · exact equal _ _ h
      · cases b with
        | map bs => exact map as bs h fun f hf => (ih f hf).2
        | _ => exact other _ _ h ⟨by simp [type], by simp [type]⟩
  | array as ih =>
      by_cases h : (Dynamic.array as).equals b = true
      · exact equal _ _ h
      · cases b with
        | array bs => exact array as bs h ih
        | _ => exact other _ _ h ⟨by simp [type], by simp [type]⟩
  | _ => exact scalar _ b (by simp [type]) (by simp [type])

theorem smallerEncoded_eq_ok {c s d : ValueDiff} :
    ValueDiff.smallerEncoded c s = .ok d ↔ ∃ m n, c.toDynamic.nativelyEncodedSizeof = some m
      ∧ s.toDynamic.nativelyEncodedSizeof = some n ∧ d = if m < n then c else s := by
  rw [ValueDiff.smallerEncoded]
  cases c.toDynamic.nativelyEncodedSizeof with
  | none => simp
  | some m =>
      cases s.toDynamic.nativelyEncodedSizeof with
      | none => simp
      | some n => simp [eq_comm]

theorem computeMapDiff_eq_ok {path : List Dynamic} {as bs : List (Dynamic × Dynamic)}
    {fields : Except DiffFault ValueDiff} {d : ValueDiff} :
    computeMapDiff path as bs fields = .ok d ↔ ∃ c, fields = .ok c
      ∧ ValueDiff.smallerEncoded c [makeUpdateItem path (.map as) (.map bs)] = .ok d :=
  Except.bind_eq_ok

theorem computeArrayDiff_eq_ok {path : List Dynamic} {as bs : List Dynamic}
    {items : Except DiffFault ValueDiff} {d : ValueDiff} :
    computeArrayDiff abi path as bs items = .ok d ↔ ∃ c,
      compressedArrayDiff path as bs items = .ok c
        ∧ ValueDiff.smallerDeep abi c [makeUpdateItem path (.array as) (.array bs)] = d := by
  rw [computeArrayDiff]
  simp [bind, Except.bind_eq_ok, pure, Except.pure]

/-- The diff of a detected insertion. -/
def insertionDiff (path b : List Dynamic) : Option InsertionDescription → ValueDiff
  | some ins => insertItems path ins.index ((b.drop ins.index).take ins.count)
  | none => []

/-- The diff of a detected removal. -/
def removalDiff (path a : List Dynamic) : Option InsertionDescription → ValueDiff
  | some rem => deleteItems path rem.index ((a.drop rem.index).take rem.count)
  | none => []

theorem compressedArrayDiff_longer {path as bs : List Dynamic}
    {items : Except DiffFault ValueDiff} (h : as.length < bs.length) :
    compressedArrayDiff path as bs items = (detectInsertion as bs).map (insertionDiff path bs) := by
  simp only [compressedArrayDiff, h, if_true]
  cases detectInsertion as bs with
  | error e => rfl
  | ok r => cases r <;> rfl

theorem compressedArrayDiff_shorter {path as bs : List Dynamic}
    {items : Except DiffFault ValueDiff} (h : bs.length < as.length) :
    compressedArrayDiff path as bs items = (detectInsertion bs as).map (removalDiff path as) := by
  simp only [compressedArrayDiff, h, Nat.lt_asymm h, if_true, if_false]
  cases detectInsertion bs as with
  | error e => rfl
  | ok r => cases r <;> rfl

theorem compressedArrayDiff_same {path as bs : List Dynamic} {items : Except DiffFault ValueDiff}
    (h : as.length = bs.length) : compressedArrayDiff path as bs items = items := by
  simp [compressedArrayDiff, h]

/-! ## Where the items of a diff are -/

theorem under_update (path : List Dynamic) (a b : Dynamic) :
    Under path [makeUpdateItem path a b] := by
  intro item hitem
  rw [List.mem_singleton.mp hitem]
  exact ⟨[], by simp [makeUpdateItem], fun _ => rfl⟩

theorem Under.cons_extend {path : List Dynamic} {e : Dynamic} {item : ValueDiffItem}
    {diff : ValueDiff} (hitem : item.path = extendPath path e) (h : Under path diff) :
    Under path (item :: diff) := by
  intro it hit
  rcases List.mem_cons.mp hit with rfl | hit
  · exact ⟨[e], hitem, by simp⟩
  · exact h it hit

theorem under_insertItems (path : List Dynamic) (index : ℕ) (items : List Dynamic) :
    Under path (insertItems path index items) := by
  induction items generalizing index with
  | nil => exact fun _ h => absurd h List.not_mem_nil
  | cons x items ih => exact .cons_extend rfl (ih (index + 1))

theorem under_deleteItems (path : List Dynamic) (index : ℕ) (items : List Dynamic) :
    Under path (deleteItems path index items) := by
  induction items generalizing index with
  | nil => exact fun _ h => absurd h List.not_mem_nil
  | cons x items ih =>
      refine (ih (index + 1)).append (.cons_extend rfl ?_)
      exact fun _ h => absurd h List.not_mem_nil

/-- All strings in the diff are short. -/
def ShortDiff (diff : ValueDiff) : Prop := ∀ item ∈ diff, item.toDynamic.ShortStrings

/-- All strings in the path are short. -/
def ShortPath (path : List Dynamic) : Prop := ∀ e ∈ path, e.ShortStrings

theorem ShortPath.extend {path : List Dynamic} {e : Dynamic} (h : ShortPath path)
    (he : e.ShortStrings) : ShortPath (extendPath path e) := by
  intro x hx
  rcases List.mem_append.mp hx with hx | hx
  · exact h x hx
  · rwa [List.mem_singleton.mp hx]

theorem shortStrings_optional {v : Option Dynamic} :
    (optionalToDynamic v).ShortStrings ↔ ∀ x, v = some x → x.ShortStrings := by
  cases v with
  | none =>
      refine ⟨fun _ x hx => by simp at hx, fun _ => .map ?_ ?_⟩
      · simpa using ShortStrings.string (by decide)
      · simpa using ShortStrings.nil
  | some x =>
      refine ⟨fun h => ?_, fun h => .map ?_ ?_⟩
      · cases h with
        | map keys values => simpa using values
      · simpa using ShortStrings.string (by decide)
      · simpa using h

theorem shortStrings_item {item : ValueDiffItem} : item.toDynamic.ShortStrings
    ↔ ShortPath item.path ∧ (∀ x, item.a = some x → x.ShortStrings)
      ∧ ∀ x, item.b = some x → x.ShortStrings := by
  have hop : (Dynamic.string item.op.valueId).ShortStrings := by
    refine .string ?_
    cases item.op <;> decide
  rw [← shortStrings_optional, ← shortStrings_optional]
  refine ⟨fun h => ?_, fun ⟨hpath, ha, hb⟩ => .map ?_ ?_⟩
  · cases h with
    | map keys values =>
        simp only [List.forall_mem_cons] at values
        obtain ⟨ha, hb, -, hpath, -⟩ := values
        cases hpath with
        | array hpath => exact ⟨hpath, ha, hb⟩
  · simp only [List.forall_mem_cons, List.not_mem_nil, false_implies, implies_true, and_true]
    exact ⟨.string (by decide), .string (by decide), .string (by decide), .string (by decide)⟩
  · simp only [List.forall_mem_cons, List.not_mem_nil, false_implies, implies_true, and_true]
    exact ⟨ha, hb, hop, .array hpath⟩

theorem shortDiff_cons {item : ValueDiffItem} {diff : ValueDiff} :
    ShortDiff (item :: diff) ↔ item.toDynamic.ShortStrings ∧ ShortDiff diff :=
  List.forall_mem_cons

theorem shortDiff_append {d d' : ValueDiff} :
    ShortDiff (d ++ d') ↔ ShortDiff d ∧ ShortDiff d' :=
  List.forall_mem_append

theorem shortDiff_update {path : List Dynamic} {a b : Dynamic} :
    ShortDiff [makeUpdateItem path a b]
      ↔ ShortPath path ∧ a.ShortStrings ∧ b.ShortStrings := by
  rw [shortDiff_cons, shortStrings_item]
  simp [makeUpdateItem, ShortDiff]

theorem short_insert {path : List Dynamic} {y : Dynamic} (hpath : ShortPath path)
    (hy : y.ShortStrings) : (makeInsertItem path y).toDynamic.ShortStrings := by
  rw [shortStrings_item]
  refine ⟨hpath, by simp [makeInsertItem], ?_⟩
  simpa [makeInsertItem] using hy

theorem short_delete {path : List Dynamic} {x : Dynamic} (hpath : ShortPath path)
    (hx : x.ShortStrings) : (makeDeleteItem path x).toDynamic.ShortStrings := by
  rw [shortStrings_item]
  refine ⟨hpath, ?_, by simp [makeDeleteItem]⟩
  simpa [makeDeleteItem] using hx

theorem short_insertItems {path : List Dynamic} (hpath : ShortPath path) {items : List Dynamic}
    (h : ∀ x ∈ items, x.ShortStrings) (index : ℕ) : ShortDiff (insertItems path index items) := by
  induction items generalizing index with
  | nil => exact fun _ hit => absurd hit List.not_mem_nil
  | cons x items ih =>
      rw [List.forall_mem_cons] at h
      exact shortDiff_cons.mpr ⟨short_insert (hpath.extend (.integer _)) h.1, ih h.2 _⟩

theorem short_deleteItems {path : List Dynamic} (hpath : ShortPath path) {items : List Dynamic}
    (h : ∀ x ∈ items, x.ShortStrings) (index : ℕ) : ShortDiff (deleteItems path index items) := by
  induction items generalizing index with
  | nil => exact fun _ hit => absurd hit List.not_mem_nil
  | cons x items ih =>
      rw [List.forall_mem_cons] at h
      refine shortDiff_append.mpr ⟨ih h.2 _, shortDiff_cons.mpr ⟨?_, ?_⟩⟩
      · exact short_delete (hpath.extend (.integer _)) h.1
      · exact fun _ hit => absurd hit List.not_mem_nil

/-- What is known of every diff computed at a path. -/
structure Placed (path : List Dynamic) (a b : Dynamic) (d : ValueDiff) : Prop where
  under : Under path d
  short : ShortPath path → a.ShortStrings → b.ShortStrings → ShortDiff d

theorem placed_update (path : List Dynamic) (a b : Dynamic) :
    Placed path a b [makeUpdateItem path a b] :=
  ⟨under_update path a b, fun hpath ha hb => shortDiff_update.mpr ⟨hpath, ha, hb⟩⟩

theorem placed_nil (path : List Dynamic) (a b : Dynamic) : Placed path a b [] :=
  ⟨fun _ h => absurd h List.not_mem_nil, fun _ _ _ _ h => absurd h List.not_mem_nil⟩

/-- The diff of two maps, if those of the common fields are placed. -/
theorem placed_fields {path : List Dynamic} {as bs : List (Dynamic × Dynamic)} {d : ValueDiff}
    (h : FieldWalk abi path as bs d)
    (ih : ∀ f ∈ as, ∀ s y c, (string s, y) ∈ bs →
      computeDiffAt abi f.2 (extendPath path (string s)) y = .ok c →
        Placed (extendPath path (string s)) f.2 y c) :
    Placed path (.map as) (.map bs) d := by
  induction h with
  | nil => exact placed_nil _ _ _
  | insert ha hb rest ihr =>
      obtain ⟨hunder, hshort⟩ := ihr fun f hf s y c hy =>
        ih f hf s y c (List.mem_cons_of_mem _ hy)
      refine ⟨.cons_extend rfl hunder, fun hpath hsa hsb => ?_⟩
      cases hsb with
      | map keys values =>
          rw [List.forall_mem_cons] at keys values
          exact shortDiff_cons.mpr ⟨short_insert (hpath.extend keys.1) values.1,
            hshort hpath hsa (.map keys.2 values.2)⟩
  | delete ha hb rest ihr =>
      obtain ⟨hunder, hshort⟩ := ihr fun f hf => ih f (List.mem_cons_of_mem _ hf)
      refine ⟨.cons_extend rfl hunder, fun hpath hsa hsb => ?_⟩
      cases hsa with
      | map keys values =>
          rw [List.forall_mem_cons] at keys values
          exact shortDiff_cons.mpr ⟨short_delete (hpath.extend keys.1) values.1,
            hshort hpath (.map keys.2 values.2) hsb⟩
  | both ha hb child rest ihr =>
      obtain ⟨hunder, hshort⟩ := ihr fun f hf s y c hy =>
        ih f (List.mem_cons_of_mem _ hf) s y c (List.mem_cons_of_mem _ hy)
      obtain ⟨hcu, hcs⟩ := ih _ List.mem_cons_self _ _ _ List.mem_cons_self child
      refine ⟨hcu.of_extend.append hunder, fun hpath hsa hsb => ?_⟩
      cases hsa with
      | map keys values =>
          cases hsb with
          | map keys' values' =>
              rw [List.forall_mem_cons] at keys values keys' values'
              exact shortDiff_append.mpr ⟨hcs (hpath.extend keys.1) values.1 values'.1,
                hshort hpath (.map keys.2 values.2) (.map keys'.2 values'.2)⟩

theorem itemDiffs_cons_eq_ok {path : List Dynamic} {x y : Dynamic} {as bs : List Dynamic} {i : ℕ}
    {d : ValueDiff} : itemDiffs abi (x :: as) path i (y :: bs) = .ok d ↔ ∃ c e,
      computeDiffAt abi x (extendPath path (integer i)) y = .ok c
        ∧ itemDiffs abi as path (i + 1) bs = .ok e ∧ c ++ e = d := by
  simp only [itemDiffs, bind, Except.bind_eq_ok]
  simp [pure, Except.pure]

/-- The diff of two arrays of one size, if those of their items are placed. -/
theorem placed_items {path : List Dynamic} {as bs : List Dynamic} {i : ℕ} {d : ValueDiff}
    (hlen : as.length = bs.length) (h : itemDiffs abi as path i bs = .ok d)
    (ih : ∀ x ∈ as, ∀ y ∈ bs, ∀ j c, computeDiffAt abi x (extendPath path (integer j)) y = .ok c →
      Placed (extendPath path (integer j)) x y c) :
    Placed path (.array as) (.array bs) d := by
  induction as generalizing bs i d with
  | nil =>
      simp only [itemDiffs, Except.ok.injEq] at h
      subst h
      exact placed_nil _ _ _
  | cons x as iha =>
      cases bs with
      | nil => simp at hlen
      | cons y bs =>
          obtain ⟨c, e, hc, he, rfl⟩ := itemDiffs_cons_eq_ok.mp h
          obtain ⟨hunder, hshort⟩ := iha (by simpa using hlen) he fun x hx y hy =>
            ih x (List.mem_cons_of_mem _ hx) y (List.mem_cons_of_mem _ hy)
          obtain ⟨hcu, hcs⟩ := ih x List.mem_cons_self y List.mem_cons_self _ c hc
          refine ⟨hcu.of_extend.append hunder, fun hpath hsa hsb => ?_⟩
          cases hsa with
          | array ha =>
              cases hsb with
              | array hb =>
                  rw [List.forall_mem_cons] at ha hb
                  exact shortDiff_append.mpr ⟨hcs (hpath.extend (.integer _)) ha.1 hb.1,
                    hshort hpath (.array ha.2) (.array hb.2)⟩

theorem placed_insertion (path : List Dynamic) {as bs : List Dynamic}
    (r : Option InsertionDescription) :
    Placed path (.array as) (.array bs) (insertionDiff path bs r) := by
  cases r with
  | none => exact placed_nil _ _ _
  | some ins =>
      refine ⟨under_insertItems _ _ _, fun hpath _ hsb =>
        short_insertItems hpath (fun x hx => ?_) _⟩
      cases hsb with
      | array h => exact h x (List.mem_of_mem_drop (List.mem_of_mem_take hx))

theorem placed_removal (path : List Dynamic) {as bs : List Dynamic}
    (r : Option InsertionDescription) :
    Placed path (.array as) (.array bs) (removalDiff path as r) := by
  cases r with
  | none => exact placed_nil _ _ _
  | some rem =>
      refine ⟨under_deleteItems _ _ _, fun hpath hsa _ =>
        short_deleteItems hpath (fun x hx => ?_) _⟩
      cases hsa with
      | array h => exact h x (List.mem_of_mem_drop (List.mem_of_mem_take hx))

/-- The compressed diff of two arrays. -/
theorem placed_compressed {path : List Dynamic} {as bs : List Dynamic} {d : ValueDiff}
    (h : compressedArrayDiff path as bs (itemDiffs abi as path 0 bs) = .ok d)
    (ih : ∀ x ∈ as, ∀ y ∈ bs, ∀ j c, computeDiffAt abi x (extendPath path (integer j)) y = .ok c →
      Placed (extendPath path (integer j)) x y c) :
    Placed path (.array as) (.array bs) d := by
  rcases Nat.lt_trichotomy as.length bs.length with hlt | heq | hgt
  · rw [compressedArrayDiff_longer hlt] at h
    cases hr : detectInsertion as bs with
    | error e =>
        rw [hr] at h
        cases h
    | ok r =>
        rw [hr] at h
        cases h
        exact placed_insertion path r
  · rw [compressedArrayDiff_same heq] at h
    exact placed_items heq h ih
  · rw [compressedArrayDiff_shorter hgt] at h
    cases hr : detectInsertion bs as with
    | error e =>
        rw [hr] at h
        cases h
    | ok r =>
        rw [hr] at h
        cases h
        exact placed_removal path r

theorem regular_item {items : List Dynamic} (h : (Dynamic.array items).Regular) {x : Dynamic}
    (hx : x ∈ items) : x.Regular := by
  cases h with
  | array h => exact h x hx

theorem regular_value {fields : List (Dynamic × Dynamic)} (h : (Dynamic.map fields).Regular)
    {f : Dynamic × Dynamic} (hf : f ∈ fields) : f.2.Regular := by
  cases h with
  | map _ _ values => exact values f hf

/-- Every diff is placed. -/
theorem placed_of_ok {a b : Dynamic} (ha : a.Regular) (hb : b.Regular) {path : List Dynamic}
    {d : ValueDiff} (h : computeDiffAt abi a path b = .ok d) : Placed path a b d := by
  induction a, b using diff_induction generalizing path d with
  | equal a b heq =>
      rw [computeDiffAt_equal heq] at h
      cases h
      exact placed_nil _ _ _
  | other a b hne hi =>
      rw [computeDiffAt_incomparable hne hi] at h
      cases h
      exact placed_update _ _ _
  | map as bs hne ih =>
      rw [computeDiffAt_map hne, computeMapDiff_eq_ok] at h
      obtain ⟨c, hc, hsmaller⟩ := h
      obtain ⟨m, n, -, -, rfl⟩ := smallerEncoded_eq_ok.mp hsmaller
      have hwalk := fieldWalk_of_ok (ordered_of_regular ha) (ordered_of_regular hb) hc
      split
      · exact placed_fields hwalk fun f hf s y c hy hc =>
          ih f hf y (regular_value ha hf) (regular_value hb hy) hc
      · exact placed_update _ _ _
  | array as bs hne ih =>
      rw [computeDiffAt_array hne, computeArrayDiff_eq_ok] at h
      obtain ⟨c, hc, rfl⟩ := h
      rw [ValueDiff.smallerDeep]
      split
      · exact placed_compressed hc fun x hx y hy j c hc =>
          ih x hx y (regular_item ha hx) (regular_item hb hy) hc
      · exact placed_update _ _ _

/-! ## When a diff can be computed -/

/-- `P` holds of the values of every key that both maps have. -/
def Common (as bs : List (Dynamic × Dynamic)) (P : Bytes → Dynamic → Dynamic → Prop) : Prop :=
  ∀ s x y, (string s, x) ∈ as → (string s, y) ∈ bs → P s x y

section Common
variable {s : Bytes} {x y : Dynamic} {as bs : List (Dynamic × Dynamic)}
  {P : Bytes → Dynamic → Dynamic → Prop}

theorem not_mem_of_before (h : Before s as) : (string s, x) ∉ as := by
  intro hx
  obtain ⟨t, ht, hlt⟩ := h _ hx
  cases ht
  exact List.lt_irrefl s hlt

theorem common_insert (ha : Before s as) : Common as ((string s, y) :: bs) P ↔ Common as bs P := by
  refine ⟨fun h t u v hu hv => h t u v hu (List.mem_cons_of_mem _ hv), fun h t u v hu hv => ?_⟩
  rcases List.mem_cons.mp hv with hv | hv
  · cases hv
    exact absurd hu (not_mem_of_before ha)
  · exact h t u v hu hv

theorem common_delete (hb : Before s bs) : Common ((string s, x) :: as) bs P ↔ Common as bs P := by
  refine ⟨fun h t u v hu => h t u v (List.mem_cons_of_mem _ hu), fun h t u v hu hv => ?_⟩
  rcases List.mem_cons.mp hu with hu | hu
  · cases hu
    exact absurd hv (not_mem_of_before hb)
  · exact h t u v hu hv

theorem common_both (ha : Before s as) (hb : Before s bs) :
    Common ((string s, x) :: as) ((string s, y) :: bs) P ↔ P s x y ∧ Common as bs P := by
  refine ⟨fun h => ⟨h s x y List.mem_cons_self List.mem_cons_self, fun t u v hu hv =>
    h t u v (List.mem_cons_of_mem _ hu) (List.mem_cons_of_mem _ hv)⟩, fun h t u v hu hv => ?_⟩
  rcases List.mem_cons.mp hu with hu | hu
  · cases hu
    rcases List.mem_cons.mp hv with hv | hv
    · cases hv
      exact h.1
    · exact absurd hv (not_mem_of_before hb)
  · rcases List.mem_cons.mp hv with hv | hv
    · cases hv
      exact absurd hu (not_mem_of_before ha)
    · exact h.2 t u v hu hv

end Common

theorem FieldWalk.child {path : List Dynamic} {as bs : List (Dynamic × Dynamic)} {d : ValueDiff}
    (h : FieldWalk abi path as bs d) : Common as bs fun s x y =>
      ∃ c, computeDiffAt abi x (extendPath path (string s)) y = .ok c := by
  induction h with
  | nil => exact fun _ _ _ hx => absurd hx List.not_mem_nil
  | insert ha hb rest ih => exact (common_insert ha).mpr ih
  | delete ha hb rest ih => exact (common_delete hb).mpr ih
  | both ha hb child rest ih => exact (common_both ha hb).mpr ⟨⟨_, child⟩, ih⟩

/-- The diffs of the common fields are all that can fail. -/
theorem fieldDiffs_ok {path : List Dynamic} {as bs : List (Dynamic × Dynamic)} (ha : Ordered as)
    (hb : Ordered bs) (h : Common as bs fun s x y =>
      ∃ c, computeDiffAt abi x (extendPath path (string s)) y = .ok c) :
    ∃ d, fieldDiffs abi as path bs = .ok d := by
  induction ha generalizing bs with
  | nil => exact ⟨_, by rw [fieldDiffs]⟩
  | @cons s x as hs ha ih =>
      simp only [fieldDiffs]
      induction hb with
      | nil =>
          obtain ⟨e, he⟩ := ih .nil ((common_delete (before_nil s)).mp h)
          exact ⟨_, Except.bind_eq_ok.mpr ⟨e, he, rfl⟩⟩
      | @cons t y bs ht hb ihb =>
          simp only [walkFields, equals_string, lt_string, decide_eq_true_eq]
          by_cases heq : s = t
          · subst heq
            obtain ⟨⟨c, hc⟩, hrest⟩ := (common_both hs ht).mp h
            obtain ⟨e, he⟩ := ih hb hrest
            rw [if_pos rfl]
            exact ⟨_, Except.bind_eq_ok.mpr ⟨c, hc, Except.bind_eq_ok.mpr ⟨e, he, rfl⟩⟩⟩
          · rw [if_neg heq]
            by_cases hlt : s < t
            · rw [if_pos hlt]
              have hbefore : Before s ((string t, y) :: bs) := (ht.of_lt hlt).cons hlt
              obtain ⟨e, he⟩ := ih (.cons ht hb) ((common_delete hbefore).mp h)
              exact ⟨_, Except.bind_eq_ok.mpr ⟨e, he, rfl⟩⟩
            · rw [if_neg hlt]
              have hgt : t < s := ((Std.lt_trichotomy s t).resolve_left hlt).resolve_left heq
              have hbefore : Before t ((string s, x) :: as) := (hs.of_lt hgt).cons hgt
              obtain ⟨e, he⟩ := ihb ((common_insert hbefore).mp h)
              exact ⟨_, Except.bind_eq_ok.mpr ⟨e, he, rfl⟩⟩

/-- `P` holds of the items at every index that both arrays have. -/
def Itemwise (as bs : List Dynamic) (P : ℕ → Dynamic → Dynamic → Prop) : Prop :=
  ∀ j x y, as[j]? = some x → bs[j]? = some y → P j x y

theorem itemwise_cons {x y : Dynamic} {as bs : List Dynamic} {P : ℕ → Dynamic → Dynamic → Prop} :
    Itemwise (x :: as) (y :: bs) P ↔ P 0 x y ∧ Itemwise as bs fun j => P (j + 1) := by
  refine ⟨fun h => ⟨h 0 x y rfl rfl, fun j u v hu hv => h (j + 1) u v hu hv⟩,
    fun h j u v hu hv => ?_⟩
  cases j with
  | zero =>
      cases hu
      cases hv
      exact h.1
  | succ j => exact h.2 j u v hu hv

theorem itemDiffs_ok_iff {path : List Dynamic} {as bs : List Dynamic} {i : ℕ}
    (hlen : as.length = bs.length) : (∃ d, itemDiffs abi as path i bs = .ok d)
      ↔ Itemwise as bs fun j x y =>
        ∃ c, computeDiffAt abi x (extendPath path (integer (i + j : ℕ))) y = .ok c := by
  induction as generalizing bs i with
  | nil =>
      refine ⟨fun _ j x y hx => by simp at hx, fun _ => ⟨[], ?_⟩⟩
      simp [itemDiffs]
  | cons x as ih =>
      cases bs with
      | nil => simp at hlen
      | cons y bs =>
          have hrest := ih (i := i + 1) (Nat.succ.inj hlen)
          rw [itemwise_cons]
          simp only [itemDiffs_cons_eq_ok, Nat.add_zero]
          have hshift : (fun j x y => ∃ c, computeDiffAt abi x
              (extendPath path (integer (i + (j + 1) : ℕ))) y = .ok c)
              = fun j x y => ∃ c, computeDiffAt abi x
                (extendPath path (integer (i + 1 + j : ℕ))) y = .ok c := by
            funext j
            rw [Nat.add_right_comm, Nat.add_assoc]
          rw [hshift, ← hrest]
          constructor
          · rintro ⟨d, c, e, hc, he, -⟩
            exact ⟨⟨c, hc⟩, ⟨e, he⟩⟩
          · rintro ⟨⟨c, hc⟩, ⟨e, he⟩⟩
            exact ⟨c ++ e, c, e, hc, he, rfl⟩

theorem encodedSizeof_isSome {d : ValueDiff} :
    d.toDynamic.nativelyEncodedSizeof.isSome ↔ ShortDiff d := by
  rw [nativelyEncodedSizeof_isSome]
  refine ⟨fun h => ?_, fun h => .array fun x hx => ?_⟩
  · cases h with
    | array h => exact fun item hitem => h _ (List.mem_map_of_mem hitem)
  · obtain ⟨item, hitem, rfl⟩ := List.mem_map.mp hx
    exact h item hitem

/-- The diff can be computed: between corresponding maps that differ no string is too long
to be encoded, and between corresponding arrays of different sizes `detect_insertion` stays
within bounds. -/
inductive Computes : Dynamic → Dynamic → Prop
  | equal {a b : Dynamic} (h : a.equals b = true) : Computes a b
  | other {a b : Dynamic} (h : Incomparable a b) : Computes a b
  | map {as bs : List (Dynamic × Dynamic)} (ha : (Dynamic.map as).ShortStrings)
      (hb : (Dynamic.map bs).ShortStrings)
      (h : ∀ s x y, (string s, x) ∈ as → (string s, y) ∈ bs → Computes x y) :
      Computes (map as) (map bs)
  | same {as bs : List Dynamic} (hlen : as.length = bs.length)
      (h : ∀ (j : ℕ) (x y : Dynamic), as[j]? = some x → bs[j]? = some y → Computes x y) :
      Computes (array as) (array bs)
  | longer {as bs : List Dynamic} (hlen : as.length < bs.length)
      (h : ∃ r, detectInsertion as bs = .ok r) : Computes (array as) (array bs)
  | shorter {as bs : List Dynamic} (hlen : bs.length < as.length)
      (h : ∃ r, detectInsertion bs as = .ok r) : Computes (array as) (array bs)

theorem map_eq_ok {ε α β : Type} {x : Except ε α} {f : α → β} :
    (∃ b, x.map f = .ok b) ↔ ∃ a, x = .ok a := by
  cases x <;> simp [Except.map]

theorem computeMapDiff_ok_iff {path : List Dynamic} {as bs : List (Dynamic × Dynamic)}
    (ha : (Dynamic.map as).Regular) (hb : (Dynamic.map bs).Regular) (hpath : ShortPath path) :
    (∃ d, computeMapDiff path as bs (fieldDiffs abi as path bs) = .ok d)
      ↔ (Dynamic.map as).ShortStrings ∧ (Dynamic.map bs).ShortStrings
        ∧ Common as bs fun s x y =>
          ∃ c, computeDiffAt abi x (extendPath path (string s)) y = .ok c := by
  have hwalk : ∀ c, fieldDiffs abi as path bs = .ok c → FieldWalk abi path as bs c := fun c hc =>
    fieldWalk_of_ok (ordered_of_regular ha) (ordered_of_regular hb) hc
  constructor
  · rintro ⟨d, hd⟩
    obtain ⟨c, hc, hsmaller⟩ := computeMapDiff_eq_ok.mp hd
    obtain ⟨m, n, -, hn, -⟩ := smallerEncoded_eq_ok.mp hsmaller
    have hshort : ShortDiff [makeUpdateItem path (.map as) (.map bs)] := by
      rw [← encodedSizeof_isSome, hn]
      rfl
    obtain ⟨-, hsa, hsb⟩ := shortDiff_update.mp hshort
    exact ⟨hsa, hsb, (hwalk c hc).child⟩
  · rintro ⟨hsa, hsb, hcommon⟩
    obtain ⟨c, hc⟩ := fieldDiffs_ok (ordered_of_regular ha) (ordered_of_regular hb) hcommon
    have hplaced : Placed path (.map as) (.map bs) c :=
      placed_fields (hwalk c hc) fun f hf s y c hy hc =>
        placed_of_ok (regular_value ha hf) (regular_value hb hy) hc
    obtain ⟨m, hm⟩ := Option.isSome_iff_exists.mp
      (encodedSizeof_isSome.mpr (hplaced.short hpath hsa hsb))
    obtain ⟨n, hn⟩ := Option.isSome_iff_exists.mp
      (encodedSizeof_isSome.mpr (shortDiff_update.mpr ⟨hpath, hsa, hsb⟩))
    exact ⟨_, computeMapDiff_eq_ok.mpr ⟨c, hc, smallerEncoded_eq_ok.mpr ⟨m, n, hm, hn, rfl⟩⟩⟩

theorem computeArrayDiff_ok_iff {path as bs : List Dynamic} {items : Except DiffFault ValueDiff} :
    (∃ d, computeArrayDiff abi path as bs items = .ok d)
      ↔ ∃ c, compressedArrayDiff path as bs items = .ok c := by
  simp only [computeArrayDiff_eq_ok]
  exact ⟨fun ⟨_, c, hc, _⟩ => ⟨c, hc⟩, fun ⟨c, hc⟩ => ⟨_, c, hc, rfl⟩⟩

theorem computes_iff {a b : Dynamic} (ha : a.Regular) (hb : b.Regular) {path : List Dynamic}
    (hpath : ShortPath path) : (∃ d, computeDiffAt abi a path b = .ok d) ↔ Computes a b := by
  induction a, b using diff_induction generalizing path with
  | equal a b heq => exact ⟨fun _ => .equal heq, fun _ => ⟨_, computeDiffAt_equal heq⟩⟩
  | other a b hne hi =>
      exact ⟨fun _ => .other hi, fun _ => ⟨_, computeDiffAt_incomparable hne hi⟩⟩
  | map as bs hne ih =>
      rw [computeDiffAt_map hne, computeMapDiff_ok_iff ha hb hpath]
      have hkey : ∀ {s x}, (Dynamic.map as).ShortStrings → (string s, x) ∈ as →
          ShortPath (extendPath path (string s)) := by
        intro s x hsa hx
        cases hsa with
        | map keys _ => exact hpath.extend (keys _ hx)
      constructor
      · rintro ⟨hsa, hsb, hcommon⟩
        refine .map hsa hsb fun s x y hx hy => ?_
        exact (ih _ hx y (regular_value ha hx) (regular_value hb hy) (hkey hsa hx)).mp
          (hcommon s x y hx hy)
      · intro h
        cases h with
        | equal h => exact absurd h hne
        | other h => exact absurd ⟨rfl, rfl⟩ h.1
        | map hsa hsb h =>
            refine ⟨hsa, hsb, fun s x y hx hy => ?_⟩
            exact (ih _ hx y (regular_value ha hx) (regular_value hb hy) (hkey hsa hx)).mpr
              (h s x y hx hy)
  | array as bs hne ih =>
      rw [computeDiffAt_array hne, computeArrayDiff_ok_iff]
      rcases Nat.lt_trichotomy as.length bs.length with hlt | heq | hgt
      · rw [compressedArrayDiff_longer hlt, map_eq_ok]
        refine ⟨fun h => .longer hlt h, fun h => ?_⟩
        cases h with
        | equal h => exact absurd h hne
        | other h => exact absurd ⟨rfl, rfl⟩ h.2
        | same hlen => omega
        | longer _ h => exact h
        | shorter hlen => omega
      · have hitem : ∀ {j : ℕ} {x y : Dynamic}, as[j]? = some x → bs[j]? = some y →
            ((∃ c, computeDiffAt abi x (extendPath path (integer (0 + j : ℕ))) y = .ok c)
              ↔ Computes x y) := fun hx hy =>
          ih _ (List.mem_of_getElem? hx) _ (regular_item ha (List.mem_of_getElem? hx))
            (regular_item hb (List.mem_of_getElem? hy)) (hpath.extend (.integer _))
        rw [compressedArrayDiff_same heq, itemDiffs_ok_iff heq]
        constructor
        · exact fun h => .same heq fun j x y hx hy => (hitem hx hy).mp (h j x y hx hy)
        · intro h
          cases h with
          | equal h => exact absurd h hne
          | other h => exact absurd ⟨rfl, rfl⟩ h.2
          | same _ h => exact fun j x y hx hy => (hitem hx hy).mpr (h j x y hx hy)
          | longer hlen => omega
          | shorter hlen => omega
      · rw [compressedArrayDiff_shorter hgt, map_eq_ok]
        refine ⟨fun h => .shorter hgt h, fun h => ?_⟩
        cases h with
        | equal h => exact absurd h hne
        | other h => exact absurd ⟨rfl, rfl⟩ h.2
        | same hlen => omega
        | longer hlen => omega
        | shorter _ h => exact h

/-! ## When a diff is empty -/

/-- The loop of `compute_map_diff` adds nothing only for fields that are equal. -/
theorem fieldsEqual_of_fieldDiffs {path : List Dynamic} {as bs : List (Dynamic × Dynamic)}
    (ih : ∀ f ∈ as, ∀ path y, computeDiffAt abi f.2 path y = .ok [] → f.2.equals y = true)
    (h : fieldDiffs abi as path bs = .ok []) : FieldsEqual as bs := by
  induction as generalizing bs with
  | nil =>
      simp only [fieldDiffs, Except.ok.injEq, List.map_eq_nil_iff] at h
      subst h
      exact .nil
  | cons f as iha =>
      obtain ⟨k, x⟩ := f
      obtain ⟨ihx, ihas⟩ := List.forall_mem_cons.mp ih
      simp only [fieldDiffs] at h
      cases bs with
      | nil =>
          obtain ⟨e, -, hd⟩ := Except.bind_eq_ok.mp h
          cases hd
      | cons g bs =>
          obtain ⟨l, y⟩ := g
          rw [walkFields] at h
          by_cases heq : k.equals l = true
          · rw [if_pos heq] at h
            obtain ⟨c, hc, h⟩ := Except.bind_eq_ok.mp h
            obtain ⟨e, he, hd⟩ := Except.bind_eq_ok.mp h
            obtain ⟨rfl, rfl⟩ : c = [] ∧ e = [] := by simpa [pure, Except.pure] using hd
            exact .cons ⟨heq, ihx _ _ hc⟩ (iha ihas he)
          · -- what is only in one of the maps makes an item
            rw [if_neg heq] at h
            split at h
            · obtain ⟨e, -, hd⟩ := Except.bind_eq_ok.mp h
              cases hd
            · obtain ⟨e, -, hd⟩ := Except.bind_eq_ok.mp h
              cases hd

/-- An empty diff of the items is never taken. -/
theorem smallerDeep_ne_nil {c : ValueDiff} {item : ValueDiffItem} :
    ValueDiff.smallerDeep abi c [item] ≠ [] := by
  rw [ValueDiff.smallerDeep]
  split
  case isTrue h =>
    rintro rfl
    simp at h
  case isFalse => exact List.cons_ne_nil _ _

theorem computeDiffAt_eq_nil {a b : Dynamic} {path : List Dynamic} :
    computeDiffAt abi a path b = .ok [] ↔ a.equals b = true := by
  refine ⟨fun h => ?_, computeDiffAt_equal⟩
  induction a, b using diff_induction generalizing path with
  | equal a b heq => exact heq
  | other a b hne hi =>
      rw [computeDiffAt_incomparable hne hi] at h
      cases h
  | map as bs hne ih =>
      rw [computeDiffAt_map hne, computeMapDiff_eq_ok] at h
      obtain ⟨c, hc, hsmaller⟩ := h
      obtain ⟨m, n, -, -, hd⟩ := smallerEncoded_eq_ok.mp hsmaller
      split at hd
      · subst hd
        exact equals_map.mpr (fieldsEqual_of_fieldDiffs (fun f hf _ y => ih f hf y) hc)
      · cases hd
  | array as bs hne ih =>
      rw [computeDiffAt_array hne, computeArrayDiff_eq_ok] at h
      obtain ⟨c, -, hd⟩ := h
      exact absurd hd smallerDeep_ne_nil

end Cradle
