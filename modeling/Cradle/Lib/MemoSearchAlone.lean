import Cradle.Lib.MemoSearch
import Mathlib.Algebra.BigOperators.Group.Finset.Basic
import Mathlib.Algebra.Order.Ring.Nat

/-!
# A search that is alone

While no other search is under way, a search that lists the nodes that it has met comes to the
right answer, in whatever order its tasks go on: it looks up an answer only for a node that is
not on the list, and a node on the list is looked into by one of its tasks.  It also comes to an
end, for it never waits and opens each node at most once.
-/

namespace MemoSearch

section
variable {ι ν : Type*}

/-- The opened node leads to another. -/
def Graph.Edge (G : Graph ι ν) (x y : ν) : Prop := ∃ i xs, G.next i x = some xs ∧ y ∈ xs

/-- A node that is looked for can be reached. -/
def Graph.Finds (G : Graph ι ν) (x : ν) : Prop :=
  ∃ y, Relation.ReflTransGen G.Edge x y ∧ G.goal y = true

/-- Some part of the task is as `P` says. -/
inductive Task.Has (P : Task ν → Prop) : Task ν → Prop
  | here {t} : P t → Has P t
  | there {x t subtasks} : t ∈ subtasks → Has P t → Has P (.body x subtasks)

variable {G : Graph ι ν} {P : Task ν → Prop} {m m' : Memory ν} {seen seen' : List ν}
  {t t' : Task ν} {x y : ν}

@[simp] theorem has_call : (Task.call x).Has P ↔ P (.call x) :=
  ⟨fun h => by cases h; assumption, .here⟩

@[simp] theorem has_await {attempt : ℕ} : (Task.await x attempt).Has P ↔ P (.await x attempt) :=
  ⟨fun h => by cases h; assumption, .here⟩

@[simp] theorem has_opening : (Task.opening x).Has P ↔ P (.opening x) :=
  ⟨fun h => by cases h; assumption, .here⟩

@[simp] theorem has_done {answer : Option Bool} : (Task.done x answer).Has P ↔ P (.done x answer) :=
  ⟨fun h => by cases h; assumption, .here⟩

@[simp] theorem has_body {subtasks : List (Task ν)} :
    (Task.body x subtasks).Has P ↔ P (.body x subtasks) ∨ ∃ t ∈ subtasks, t.Has P := by
  constructor
  · intro h
    cases h with
    | here h => exact .inl h
    | there hmem h => exact .inr ⟨_, hmem, h⟩
  · rintro (h | ⟨t, hmem, h⟩)
    · exact .here h
    · exact .there hmem h

theorem Task.Has.imp {Q : Task ν → Prop} (hPQ : ∀ u, P u → Q u) (h : t.Has P) : t.Has Q := by
  induction h with
  | here h => exact .here (hPQ _ h)
  | there hmem _ ih => exact .there hmem ih

/-- A part of a part. -/
theorem Task.Has.trans {Q : Task ν → Prop} (hPQ : ∀ u, P u → u.Has Q) (h : t.Has P) :
    t.Has Q := by
  induction h with
  | here h => exact hPQ _ h
  | there hmem _ ih => exact .there hmem ih

/-- What the task will answer does not depend on anything that it still does. -/
def Task.Settled (G : Graph ι ν) (t : Task ν) : Prop :=
  t.Has fun u => u.result = some none ∨ u.result = some (some true) ∨
    ∃ x subtasks, u = .body x subtasks ∧ G.goal x = true

/-- Some part of the task waits. -/
def Task.Awaits (t : Task ν) : Prop := t.Has fun u => ∃ x attempt, u = .await x attempt

/-- The nodes of the parts of the task that have been started are on the list. -/
def Task.Met (seen : List ν) (t : Task ν) : Prop :=
  ¬ t.Has fun u => u.started = true ∧ u.node ∉ seen

theorem settled_body {subtasks : List (Task ν)} :
    (Task.body x subtasks).Settled G ↔ G.goal x = true ∨ ∃ t ∈ subtasks, t.Settled G := by
  simp [Task.Settled, Task.result]

theorem settled_done {answer : Option Bool} :
    (Task.done x answer).Settled G ↔ answer ≠ some false := by
  rcases answer with _ | _ | _ <;> simp [Task.Settled, Task.result]

theorem met_body {subtasks : List (Task ν)} :
    (Task.body x subtasks).Met seen ↔ x ∈ seen ∧ ∀ t ∈ subtasks, t.Met seen := by
  simp [Task.Met, Task.started, Task.node, not_or]

theorem Task.Met.mono (hsub : seen ⊆ seen') (h : t.Met seen) : t.Met seen' := by
  intro hhas
  apply h
  induction hhas with
  | here hP => exact .here ⟨hP.1, fun hmem => hP.2 (hsub hmem)⟩
  | there hmem _ ih =>
      rw [met_body] at h
      exact .there hmem (ih (h.2 _ hmem))

/-- A part of a body that is elsewhere than the subtask that goes on, or within it. -/
theorem has_within {before after : List (Task ν)} (hP : ∀ x ts, ¬ P (.body x ts)) :
    (Task.body x (before ++ t :: after)).Has P ↔
      t.Has P ∨ ∃ u ∈ before ++ after, u.Has P := by
  simp only [has_body, hP, false_or, List.mem_append, List.mem_cons, or_and_right, exists_or,
    exists_eq_left]
  exact or_left_comm

/-! ## The right answer -/

/-- The answers are right, and none is being computed. -/
def Memory.Right (G : Graph ι ν) (m : Memory ν) : Prop :=
  ∀ x, m.entry x = .absent ∨ ∃ b, m.entry x = .ready b ∧ (b = true ↔ G.Finds x)

/-- Each node on the list is one from which nothing can be found, or its successors are on the
list or will be. -/
structure Alone (G : Graph ι ν) (m : Memory ν) (seen : List ν) (t : Task ν) : Prop where
  met : t.Met seen
  no_await : ¬ t.Awaits
  fresh : ∀ x, x ∉ seen →
    m.entry x = .absent ∨ ∃ b, m.entry x = .ready b ∧ (b = true ↔ G.Finds x)
  closed : ∀ x ∈ seen, t.Settled G ∨ ¬ G.Finds x ∨ t.Has (· = .opening x) ∨
    G.goal x = false ∧ ∀ y, G.Edge x y → y ∈ seen ∨ t.Has (· = .call y)

theorem Alone.start (hm : m.Right G) : Alone G m [] (.call x) where
  met := by simp [Task.Met, Task.started]
  no_await := by simp [Task.Awaits]
  fresh := fun y _ => hm y
  closed := fun y hy => by cases hy

theorem Alone.not_computing (h : Alone G m seen t) (hx : x ∉ seen) : m.entry x ≠ .computing := by
  intro hentry
  rcases h.fresh x hx with h | ⟨b, h, -⟩
  all_goals
    rw [hentry] at h
    cases h

/-- When the search has ended with nothing found, there is nothing to be found. -/
theorem Alone.not_finds (h : Alone G m seen (.done x (some false))) : ¬ G.Finds x := by
  have hx : x ∈ seen := by simpa [Task.Met, Task.started, Task.node] using h.met
  have hclosed : ∀ z ∈ seen, ¬ G.Finds z ∨
      G.goal z = false ∧ ∀ y, G.Edge z y → y ∈ seen := by
    intro z hz
    simpa [Task.Settled, Task.result] using h.closed z hz
  clear h
  rintro ⟨y, hpath, hgoal⟩
  induction hpath using Relation.ReflTransGen.head_induction_on with
  | refl =>
      rcases hclosed y hx with h | ⟨h, -⟩
      · exact h ⟨y, .refl, hgoal⟩
      · rw [hgoal] at h
        cases h
  | @head z z' hedge hpath ih =>
      rcases hclosed z hx with h | ⟨-, h⟩
      · exact h ⟨y, .head hedge hpath, hgoal⟩
      · exact ih (h z' hedge)

/-! ## Measuring tasks -/

theorem exists_not_ended {ts : List (Task ν)} (h : ¬ ts.all (·.result.isSome) = true) :
    ∃ before u after, ts = before ++ u :: after ∧ u.result = none ∧
      ∀ v ∈ before, v.result.isSome = true := by
  cases hfind : ts.find? (·.result.isNone) with
  | none =>
      rw [List.find?_eq_none] at hfind
      refine absurd (List.all_eq_true.mpr fun u hu => ?_) h
      have hu := hfind u hu
      cases hres : u.result <;> simp_all
  | some u =>
      obtain ⟨hu, before, after, rfl, hbefore⟩ := List.find?_eq_some_iff_append.mp hfind
      refine ⟨before, u, after, rfl, by simpa using hu, fun v hv => ?_⟩
      have hv := hbefore v hv
      cases hres : v.result <;> simp_all

theorem started_of_ended (h : t.result.isSome = true) : t.started = true := by
  obtain ⟨x, a, rfl⟩ := exists_eq_done h
  rfl

mutual

/-- How many steps the task can take at most, the nodes that it will open aside. -/
def Task.weight (cost : ν → ℕ) : Task ν → ℕ
  | .call _ => 1
  | .await _ _ => 1
  | .opening x => 2 + cost x
  | .body _ subtasks => 1 + weights cost subtasks
  | .done _ _ => 0

def weights (cost : ν → ℕ) : List (Task ν) → ℕ
  | [] => 0
  | t :: ts => t.weight cost + weights cost ts

end

theorem weights_append (cost : ν → ℕ) (ts us : List (Task ν)) :
    weights cost (ts ++ us) = weights cost ts + weights cost us := by
  induction ts with
  | nil => simp [weights]
  | cons t ts ih => simp [weights, ih, Nat.add_assoc]

theorem weights_call (cost : ν → ℕ) (xs : List ν) :
    weights cost (xs.map .call) = xs.length := by
  induction xs with
  | nil => rfl
  | cons x xs ih =>
      simp only [List.map_cons, weights, Task.weight, ih, List.length_cons]
      omega

/-- All nodes of the task are among `nodes`. -/
def Task.Within (nodes : Finset ν) (t : Task ν) : Prop := ¬ t.Has fun u => u.node ∉ nodes

theorem within_body {nodes : Finset ν} {ts : List (Task ν)} :
    (Task.body x ts).Within nodes ↔ x ∈ nodes ∧ ∀ t ∈ ts, t.Within nodes := by
  simp [Task.Within, Task.node]

/-! ## The effect of a step -/

variable [DecidableEq ν]

theorem entry_set (m : Memory ν) (x y : ν) (e : Entry) :
    (m.set x e).entry y = if y = x then e else m.entry y := by
  simp [Memory.set, Function.update_apply]

theorem entry_finish (m : Memory ν) (x y : ν) (answer : Option Bool) :
    (m.finish x answer).entry y = if y = x then .of answer else m.entry y := by
  simp [Memory.finish, Function.update_apply]

theorem Step.seen_subset (h : Step G m seen t m' seen' t') : seen ⊆ seen' := by
  induction h with
  | known | wait | miss => exact List.subset_cons_self _ _
  | within _ _ ih => exact ih
  | _ => exact List.Subset.refl _

theorem Step.met (h : Step G m seen t m' seen' t') (ht : t.Met seen) : t'.Met seen' := by
  induction h with
  | revisit _ hx => simpa [Task.Met, Task.started, Task.node] using hx
  | known | wait | miss => simp [Task.Met, Task.started, Task.node]
  | expand =>
      rw [met_body]
      simp only [Task.Met, has_opening, Task.started, Task.node, true_and, not_not] at ht
      refine ⟨ht, fun u hu => ?_⟩
      obtain ⟨y, -, rfl⟩ := List.mem_map.mp hu
      simp [Task.Met, Task.started]
  | fail | join => simpa [Task.Met, Task.started, Task.node] using ht
  | finish => simpa [Task.Met, Task.started, Task.node] using (met_body.mp ht).1
  | within _ hstep ih =>
      rw [met_body] at ht ⊢
      simp only [List.forall_mem_append, List.forall_mem_cons] at ht ⊢
      obtain ⟨hx, hbefore, hmid, hafter⟩ := ht
      have hsub := hstep.seen_subset
      exact ⟨hsub hx, fun u hu => (hbefore u hu).mono hsub, ih hmid,
        fun u hu => (hafter u hu).mono hsub⟩

theorem Step.settled (h : Step G m seen t m' seen' t') (ht : t.Settled G) : t'.Settled G := by
  induction h with
  | finish hended =>
      rw [settled_done]
      intro hfalse
      rw [conclude_eq_some] at hfalse
      obtain ⟨hnone, hiff⟩ := hfalse
      rcases settled_body.mp ht with hgoal | ⟨u, hu, hsettled⟩
      · exact absurd (hiff.mpr (.inl hgoal)) Bool.false_ne_true
      · obtain ⟨y, a, rfl⟩ := exists_eq_done (hended u hu)
        rw [settled_done] at hsettled
        rcases a with _ | _ | _
        · exact hnone (mem_filterMap_result.mpr ⟨y, hu⟩)
        · exact hsettled rfl
        · exact absurd (hiff.mpr (.inr (mem_filterMap_result.mpr ⟨y, hu⟩))) Bool.false_ne_true
  | within _ _ ih =>
      rw [settled_body] at ht ⊢
      refine ht.imp_right ?_
      rintro ⟨u, hu, hsettled⟩
      rcases List.mem_append.mp hu with hu | hu
      · exact ⟨u, List.mem_append_left _ hu, hsettled⟩
      rcases List.mem_cons.mp hu with rfl | hu
      · exact ⟨_, List.mem_append_right _ List.mem_cons_self, ih hsettled⟩
      · exact ⟨u, List.mem_append_right _ (List.mem_cons_of_mem _ hu), hsettled⟩
  | _ => simp [Task.Settled, Task.result] at ht ⊢

/-- A node that was to be asked still is, or is on the list now. -/
theorem Step.call (h : Step G m seen t m' seen' t') (ht : t.Has (· = .call y)) :
    t'.Has (· = .call y) ∨ y ∈ seen' := by
  induction h with
  | revisit _ hx =>
      obtain rfl : _ = y := by simpa using ht
      exact .inr hx
  | known | wait | miss =>
      obtain rfl : _ = y := by simpa using ht
      exact .inr List.mem_cons_self
  | expand | fail => simp at ht
  | join => simp at ht
  | finish hended =>
      rw [has_body] at ht
      obtain ht | ⟨u, hu, hhas⟩ := ht
      · cases ht
      · obtain ⟨z, a, rfl⟩ := exists_eq_done (hended u hu)
        simp at hhas
  | within _ _ ih =>
      have hbody (x : ν) (ts : List (Task ν)) : Task.body x ts ≠ .call y := fun h => by cases h
      rw [has_within hbody] at ht ⊢
      rcases ht with ht | ht
      · exact (ih ht).imp_left .inl
      · exact .inl (.inr ht)

/-- A node that was being opened still is, or it has been opened. -/
theorem Step.opening (h : Step G m seen t m' seen' t') (ht : t.Has (· = .opening x)) :
    t'.Has (· = .opening x) ∨ t'.Settled G ∨
      G.goal x = false ∧ ∃ i xs, G.next i x = some xs ∧ ∀ y ∈ xs, t'.Has (· = .call y) := by
  induction h with
  | revisit | known | wait | miss => simp at ht
  | join => simp at ht
  | @expand z i xs hnext =>
      obtain rfl : z = x := by simpa using ht
      refine .inr ?_
      cases hgoal : G.goal z with
      | true => exact .inl (settled_body.mpr (.inl hgoal))
      | false =>
          refine .inr ⟨rfl, i, xs, hnext, fun y hy => ?_⟩
          exact .there (List.mem_map_of_mem hy) (.here rfl)
  | fail => exact .inr (.inl (settled_done.mpr (by decide)))
  | finish hended =>
      rw [has_body] at ht
      obtain ht | ⟨u, hu, hhas⟩ := ht
      · cases ht
      · obtain ⟨z, a, rfl⟩ := exists_eq_done (hended u hu)
        simp at hhas
  | @within m' seen' z t t' before after _ _ ih =>
      have hbody (z : ν) (ts : List (Task ν)) : Task.body z ts ≠ .opening x :=
        fun h => by cases h
      have hmem : t' ∈ before ++ t' :: after := List.mem_append_right _ List.mem_cons_self
      rw [has_within hbody] at ht ⊢
      rcases ht with ht | ht
      · obtain h | h | ⟨hgoal, i, xs, hnext, hxs⟩ := ih ht
        · exact .inl (.inl h)
        · exact .inr (.inl (settled_body.mpr (.inr ⟨t', hmem, h⟩)))
        · exact .inr (.inr ⟨hgoal, i, xs, hnext, fun y hy => .there hmem (hxs y hy)⟩)
      · exact .inl (.inr ht)

/-- What becomes of a node that comes on the list. -/
theorem Step.met_now (h : Step G m seen t m' seen' t') (hx : x ∈ seen') (hnew : x ∉ seen) :
    t'.Settled G ∨ t'.Has (· = .opening x) ∨ m.entry x = .ready false ∨
      m.entry x = .computing := by
  induction h with
  | @known z answer _ hentry =>
      obtain rfl : x = z := (List.mem_cons.mp hx).resolve_right hnew
      cases answer with
      | true => exact .inl (settled_done.mpr (by decide))
      | false => exact .inr (.inr (.inl hentry))
  | @wait z _ hentry =>
      obtain rfl : x = z := (List.mem_cons.mp hx).resolve_right hnew
      exact .inr (.inr (.inr hentry))
  | @miss z =>
      obtain rfl : x = z := (List.mem_cons.mp hx).resolve_right hnew
      exact .inr (.inl (has_opening.mpr rfl))
  | @within _ _ _ t t' before after _ _ ih =>
      have hmem : t' ∈ before ++ t' :: after := List.mem_append_right _ List.mem_cons_self
      obtain h | h | h := ih hx
      · exact .inl (settled_body.mpr (.inr ⟨t', hmem, h⟩))
      · exact .inr (.inl (.there hmem h))
      · exact .inr (.inr h)
  | _ => exact absurd hx hnew

/-- The answer for a node that is not on the list is left as it is. -/
theorem Step.entry_eq (h : Step G m seen t m' seen' t') (ht : t.Met seen) (hx : x ∉ seen') :
    m'.entry x = m.entry x := by
  induction h with
  | @miss z =>
      have hne : x ≠ z := fun h => hx (h ▸ List.mem_cons_self)
      rw [entry_set, if_neg hne]
  | @fail z =>
      have hz : z ∈ seen := by simpa [Task.Met, Task.started, Task.node] using ht
      have hne : x ≠ z := fun h => hx (h ▸ hz)
      rw [entry_finish, if_neg hne]
  | @finish z =>
      have hne : x ≠ z := fun h => hx (h ▸ (met_body.mp ht).1)
      rw [entry_finish, if_neg hne]
  | within _ _ ih =>
      rw [met_body] at ht
      exact ih (ht.2 _ (List.mem_append_right _ List.mem_cons_self)) hx
  | _ => rfl

theorem Step.started (h : Step G m seen t m' seen' t') : t'.started = true := by
  cases h <;> rfl

/-- Without an answer that is being computed there is nothing to wait for. -/
theorem Step.no_await (h : Step G m seen t m' seen' t')
    (hm : ∀ x, x ∉ seen → m.entry x ≠ .computing) (honce : G.once = true)
    (ht : ¬ t.Awaits) : ¬ t'.Awaits := by
  induction h with
  | wait hseen hentry => exact absurd hentry (hm _ (hseen honce))
  | join => simp [Task.Awaits] at ht
  | expand => simp [Task.Awaits]
  | within _ _ ih =>
      rw [Task.Awaits, has_within (by simp), not_or] at ht ⊢
      exact ⟨ih ht.1, ht.2⟩
  | _ => simp [Task.Awaits]

/-! ## The steps of a search that is alone -/

theorem Alone.step (hdet : ∀ i j x xs ys, G.next i x = some xs → G.next j x = some ys → xs = ys)
    (honce : G.once = true) (h : Alone G m seen t) (hstep : Step G m seen t m' seen' t') :
    Alone G m' seen' t' := by
  have hsub := hstep.seen_subset
  refine ⟨hstep.met h.met, hstep.no_await (fun x hx => h.not_computing hx) honce h.no_await,
    fun x hx => ?_, fun x hx => ?_⟩
  · rw [hstep.entry_eq h.met hx]
    exact h.fresh x fun hmem => hx (hsub hmem)
  · by_cases hold : x ∈ seen
    · obtain hset | hfinds | hopen | ⟨hgoal, hsucc⟩ := h.closed x hold
      · exact .inl (hstep.settled hset)
      · exact .inr (.inl hfinds)
      · obtain h' | h' | ⟨hgoal, i, xs, hnext, hxs⟩ := hstep.opening hopen
        · exact .inr (.inr (.inl h'))
        · exact .inl h'
        · refine .inr (.inr (.inr ⟨hgoal, ?_⟩))
          rintro y ⟨j, ys, hnext', hy⟩
          rw [hdet j i x ys xs hnext' hnext] at hy
          exact .inr (hxs y hy)
      · refine .inr (.inr (.inr ⟨hgoal, fun y hy => ?_⟩))
        rcases hsucc y hy with hy | hy
        · exact .inl (hsub hy)
        · exact (hstep.call hy).symm
    · obtain h' | h' | hentry | hentry := hstep.met_now hx hold
      · exact .inl h'
      · exact .inr (.inr (.inl h'))
      · refine .inr (.inl ?_)
        rcases h.fresh x hold with hb | ⟨b, hb, hiff⟩
        · rw [hentry] at hb
          cases hb
        · rw [hentry] at hb
          cases hb
          exact fun hfinds => Bool.false_ne_true (hiff.mpr hfinds)
      · exact absurd hentry (h.not_computing hold)

/-! ## The end of the search -/

/-- One of the tasks can go on, or one waits for an attempt that has not ended. -/
theorem exists_resume (G : Graph ι ν) (m : Memory ν) (t : Task ν) (hres : t.result = none) :
    (∃ path, ∀ outcome seen, (resume G outcome path m seen t).isSome = true) ∨
      ∃ x attempt, t.Has (· = .await x attempt) ∧ (m.outcomes x)[attempt]? = none := by
  match t with
  | .call x => exact .inl ⟨[], fun _ _ => rfl⟩
  | .opening x => exact .inl ⟨[], fun _ _ => rfl⟩
  | .await x attempt =>
      cases hanswer : (m.outcomes x)[attempt]? with
      | some answer => exact .inl ⟨[], fun _ _ => by simp [resume, hanswer]⟩
      | none => exact .inr ⟨x, attempt, .here rfl, hanswer⟩
  | .done x a => cases hres
  | .body x ts =>
      by_cases hall : ts.all (·.result.isSome) = true
      · exact .inl ⟨[], fun _ _ => by simp [resume, hall]⟩
      · obtain ⟨before, u, after, hts, hu, hbefore⟩ := exists_not_ended hall
        have hmem : u ∈ ts := by simp [hts]
        rcases exists_resume G m u hu with ⟨path, hpath⟩ | ⟨y, attempt, hhas, hnone⟩
        · refine .inl ⟨before.length :: path, fun outcome seen => ?_⟩
          obtain ⟨r, hr⟩ := Option.isSome_iff_exists.mp (hpath outcome seen)
          have hstarted : before.all Task.started = true :=
            List.all_eq_true.mpr fun v hv => started_of_ended (hbefore v hv)
          simp [resume, hts, hstarted, hr]
        · exact .inr ⟨y, attempt, .there hmem hhas, hnone⟩
termination_by sizeOf t
decreasing_by
  have := List.sizeOf_lt_of_mem hmem
  simp_all
  omega

/-- What the nodes that are not yet on the list can add. -/
def remaining (cost : ν → ℕ) (nodes : Finset ν) (seen : List ν) : ℕ :=
  ∑ x ∈ nodes with x ∉ seen, (2 + cost x)

theorem remaining_cons {cost : ν → ℕ} {nodes : Finset ν} (hx : x ∈ nodes) (hseen : x ∉ seen) :
    remaining cost nodes (x :: seen) + (2 + cost x) = remaining cost nodes seen := by
  have hmem : x ∈ nodes.filter (· ∉ seen) := Finset.mem_filter.mpr ⟨hx, hseen⟩
  have hfilter : nodes.filter (· ∉ x :: seen) = (nodes.filter (· ∉ seen)).erase x := by
    ext y
    simp only [Finset.mem_filter, Finset.mem_erase, List.mem_cons, not_or]
    tauto
  rw [remaining, hfilter, remaining, Finset.sum_erase_add _ _ hmem]

theorem Step.task_within {nodes : Finset ν} (hclosed : ∀ x ∈ nodes, ∀ y, G.Edge x y → y ∈ nodes)
    (h : Step G m seen t m' seen' t') (ht : t.Within nodes) : t'.Within nodes := by
  induction h with
  | @expand z i xs hnext =>
      have hz : z ∈ nodes := by simpa [Task.Within, Task.node] using ht
      rw [within_body]
      refine ⟨hz, fun u hu => ?_⟩
      obtain ⟨y, hy, rfl⟩ := List.mem_map.mp hu
      simpa [Task.Within, Task.node] using hclosed z hz y ⟨i, xs, hnext, hy⟩
  | finish => simpa [Task.Within, Task.node] using (within_body.mp ht).1
  | within _ _ ih =>
      rw [within_body] at ht ⊢
      simp only [List.forall_mem_append, List.forall_mem_cons] at ht ⊢
      obtain ⟨hx, hbefore, hmid, hafter⟩ := ht
      exact ⟨hx, hbefore, ih hmid, hafter⟩
  | _ => simpa [Task.Within, Task.node] using ht

theorem Step.weight_lt {cost : ν → ℕ} {nodes : Finset ν} (honce : G.once = true)
    (hcost : ∀ i x xs, G.next i x = some xs → xs.length ≤ cost x)
    (h : Step G m seen t m' seen' t') (ht : t.Within nodes) :
    t'.weight cost + remaining cost nodes seen' < t.weight cost + remaining cost nodes seen := by
  induction h with
  | revisit => simp [Task.weight]
  | @known z _ hseen _ | @wait z hseen _ | @miss z hseen _ =>
      have hz : z ∈ nodes := by simpa [Task.Within, Task.node] using ht
      have : remaining cost nodes (z :: _) + (2 + cost z) = remaining cost nodes _ :=
        remaining_cons hz (hseen honce)
      simp only [Task.weight]
      omega
  | @expand z i xs hnext =>
      have := hcost i z xs hnext
      simp only [Task.weight, weights_call]
      omega
  | fail | join | finish =>
      simp only [Task.weight]
      omega
  | within _ _ ih =>
      rw [within_body] at ht
      have := ih (ht.2 _ (List.mem_append_right _ List.mem_cons_self))
      simp only [Task.weight, weights_append, weights]
      omega

/-! ## Runs of one search -/

def Action.isResume : Action ι ν → Bool
  | .resume .. => true
  | _ => false

/-- What the steps of the only search keep, and what a dropped answer and a node that somebody
else opens do not change, holds all along a run. -/
theorem World.run_one {I : Memory ν → List ν → Task ν → Prop}
    (hstep : ∀ m seen t m' seen' t', I m seen t → Step G m seen t m' seen' t' → I m' seen' t')
    (hevict : ∀ m seen t x, I m seen t → I (m.set x .absent) seen t)
    (hopen : ∀ m seen t x, I m seen t → I (m.open x) seen t) {root : ν}
    {as : List (Action ι ν)} (has : ∀ a ∈ as, ∀ x, a ≠ .ask x) {w w' : World ν} {seen : List ν}
    {t : Task ν} (hw : w.searches = [⟨root, seen, t⟩]) (h : I w.memory seen t)
    (hrun : Transition.run (World.step G) w as = some w') :
    ∃ seen' t', w'.searches = [⟨root, seen', t'⟩] ∧ I w'.memory seen' t' := by
  induction as generalizing w seen t with
  | nil =>
      obtain rfl := Option.some.inj hrun
      exact ⟨seen, t, hw, h⟩
  | cons a as ih =>
      obtain ⟨w₁, hone, hrest⟩ := Option.bind_eq_some_iff.mp hrun
      obtain ⟨ha, hrec⟩ := List.forall_mem_cons.mp has
      obtain ⟨x, rfl, -⟩ | ⟨k, path, outcome, s, m, seen', t', rfl, hk, hres, rfl⟩ |
        ⟨x, b, rfl, -, rfl⟩ | ⟨x, rfl, rfl⟩ := World.step_cases hone
      · exact absurd rfl (ha x)
      · rw [hw] at hk
        obtain ⟨hlt, rfl⟩ := List.getElem?_eq_some_iff.mp hk
        obtain rfl : k = 0 := by simpa using hlt
        exact ih hrec (by rw [hw]; rfl) (hstep _ _ _ _ _ _ h (step_of_resume hres)) hrest
      · exact ih (w := { w with memory := w.memory.set x .absent }) hrec hw (hevict _ _ _ _ h) hrest
      · exact ih (w := { w with memory := w.memory.open x }) hrec hw (hopen _ _ _ _ h) hrest

/-- There is one search, and it is in order. -/
def World.Alone (G : Graph ι ν) (nodes : Finset ν) (root : ν) (w : World ν) : Prop :=
  ∃ seen t, w.searches = [⟨root, seen, t⟩] ∧ MemoSearch.Alone G w.memory seen t ∧ t.Within nodes

def World.weight (cost : ν → ℕ) (nodes : Finset ν) (w : World ν) : ℕ :=
  (w.searches.map fun s => s.task.weight cost + remaining cost nodes s.seen).sum

theorem Alone.evict (h : MemoSearch.Alone G m seen t) :
    MemoSearch.Alone G (m.set y .absent) seen t where
  met := h.met
  no_await := h.no_await
  closed := h.closed
  fresh := by
    intro x hx
    rw [entry_set]
    split
    · exact .inl rfl
    · exact h.fresh x hx

variable {nodes : Finset ν} {root : ν} {cost : ν → ℕ} {w w' : World ν}

theorem World.Alone.step
    (hdet : ∀ i j x xs ys, G.next i x = some xs → G.next j x = some ys → xs = ys)
    (honce : G.once = true) (hclosed : ∀ x ∈ nodes, ∀ y, G.Edge x y → y ∈ nodes)
    (hcost : ∀ i x xs, G.next i x = some xs → xs.length ≤ cost x) {a : Action ι ν}
    (ha : ∀ x, a ≠ .ask x) (h : w.Alone G nodes root) (hstep : World.step G w a = some w') :
    w'.Alone G nodes root ∧
      w'.weight cost nodes + [a].countP Action.isResume ≤ w.weight cost nodes := by
  obtain ⟨seen, t, hs, halone, hwithin⟩ := h
  obtain ⟨x, rfl, -⟩ | ⟨k, path, outcome, s, m, seen', t', rfl, hk, hres, rfl⟩ |
    ⟨x, b, rfl, -, rfl⟩ | ⟨x, rfl, rfl⟩ := World.step_cases hstep
  · exact absurd rfl (ha x)
  · rw [hs] at hk
    obtain ⟨hlt, rfl⟩ := List.getElem?_eq_some_iff.mp hk
    obtain rfl : k = 0 := by simpa using hlt
    have hone := step_of_resume hres
    refine ⟨⟨seen', t', by rw [hs]; rfl, halone.step hdet honce hone,
      hone.task_within hclosed hwithin⟩, ?_⟩
    have := hone.weight_lt honce hcost hwithin
    simp only [World.weight, hs, Action.isResume, List.set_cons_zero, List.map_cons, List.map_nil,
      List.sum_cons, List.sum_nil, List.countP_cons, List.countP_nil, List.getElem_cons_zero,
      if_true]
    simp only [List.getElem_cons_zero] at this
    omega
  · exact ⟨⟨seen, t, hs, halone.evict, hwithin⟩, by simp [World.weight, Action.isResume]⟩
  · exact ⟨⟨seen, t, hs, ⟨halone.met, halone.no_await, halone.fresh, halone.closed⟩, hwithin⟩,
      by simp [World.weight, Action.isResume]⟩

theorem World.Alone.run
    (hdet : ∀ i j x xs ys, G.next i x = some xs → G.next j x = some ys → xs = ys)
    (honce : G.once = true) (hclosed : ∀ x ∈ nodes, ∀ y, G.Edge x y → y ∈ nodes)
    (hcost : ∀ i x xs, G.next i x = some xs → xs.length ≤ cost x) {as : List (Action ι ν)}
    (has : ∀ a ∈ as, ∀ x, a ≠ .ask x) (h : w.Alone G nodes root)
    (hrun : Transition.run (World.step G) w as = some w') :
    w'.Alone G nodes root ∧
      w'.weight cost nodes + as.countP Action.isResume ≤ w.weight cost nodes := by
  induction as generalizing w with
  | nil =>
      obtain rfl := Option.some.inj hrun
      exact ⟨h, le_rfl⟩
  | cons a as ih =>
      obtain ⟨w₁, hstep, hrest⟩ := Option.bind_eq_some_iff.mp hrun
      obtain ⟨ha, has⟩ := List.forall_mem_cons.mp has
      obtain ⟨h₁, hweight₁⟩ := h.step hdet honce hclosed hcost ha hstep
      obtain ⟨h', hweight⟩ := ih has h₁ hrest
      refine ⟨h', ?_⟩
      have hcount : (a :: as).countP Action.isResume
          = [a].countP Action.isResume + as.countP Action.isResume := by
        rw [← List.countP_append, List.singleton_append]
      omega

/-- As long as the search has not ended, it can go on. -/
theorem World.Alone.enabled (h : w.Alone G nodes root) :
    (∃ s a, w.searches = [s] ∧ s.task.result = some a) ∨
      ∃ path, ∀ outcome, (World.step G w (.resume 0 path outcome)).isSome = true := by
  obtain ⟨seen, t, hs, halone, -⟩ := h
  cases hres : t.result with
  | some a => exact .inl ⟨_, a, hs, hres⟩
  | none =>
      rcases exists_resume G w.memory t hres with ⟨path, hpath⟩ | ⟨x, attempt, hhas, -⟩
      · refine .inr ⟨path, fun outcome => ?_⟩
        obtain ⟨r, hr⟩ := Option.isSome_iff_exists.mp (hpath outcome seen)
        simp [World.step, hs, hr]
      · exact absurd (hhas.imp fun u hu => ⟨x, attempt, hu⟩) halone.no_await

end

/-! ## The answer of a search -/

section
variable {ι ν : Type*} {G : Graph ι ν} {nodes : Finset ν} {root : ν} {w : World ν}

/-- In every run of every number of searches, what is found is there. -/
theorem justified_finds (G : Graph ι ν) :
    Justified G fun _ x b => b = true → G.Finds x where
  grow := fun _ h => h
  revisit := fun _ _ _ h => by cases h
  conclude := by
    intro opened i x xs b hnext _ _ hsome htrue
    rcases hsome htrue with hgoal | ⟨y, hy, hfinds⟩
    · exact ⟨x, .refl, hgoal⟩
    · obtain ⟨z, hpath, hgoal⟩ := hfinds rfl
      exact ⟨z, .head ⟨i, xs, hnext, hy⟩ hpath, hgoal⟩

/-- A search that begins with right answers. -/
theorem World.Alone.asking {answers : ν → Option Bool} (hroot : root ∈ nodes)
    (h : ∀ x b, answers x = some b → (b = true ↔ G.Finds x)) :
    (World.asking (.ofAnswers answers) root).Alone G nodes root ∧
      (World.asking (.ofAnswers answers) root).Fits G fun _ x b => b = true → G.Finds x := by
  refine ⟨⟨[], .call root, rfl, .start fun x => ?_, by simp [Task.Within, Task.node, hroot]⟩,
    ⟨⟨fun x b hb => ?_, fun x b hb => by cases hb⟩, fun s hs => ?_⟩⟩
  · cases hx : answers x with
    | none => exact .inl (by simp [World.asking, Memory.ofAnswers, hx, Entry.of])
    | some b => exact .inr ⟨b, by simp [World.asking, Memory.ofAnswers, hx, Entry.of], h x b hx⟩
  · change Entry.of (answers x) = _ at hb
    cases hx : answers x with
    | none =>
        rw [hx] at hb
        cases hb
    | some c =>
        rw [hx] at hb
        cases hb
        exact (h x _ hx).mp
  · obtain rfl := List.mem_singleton.mp hs
    exact ⟨.call, rfl⟩

theorem World.Alone.answer (h : w.Alone G nodes root)
    (hfits : w.Fits G fun _ x b => b = true → G.Finds x) {s : Search ν} (hs : s ∈ w.searches)
    {b : Bool} (hb : s.task.result = some (some b)) : b = true ↔ G.Finds root := by
  obtain ⟨seen, t, hone, halone, -⟩ := h
  have hsound := hfits.answer hs hb
  have hnode := (hfits.searches s hs).2
  rw [hone] at hs
  obtain rfl := List.mem_singleton.mp hs
  refine ⟨hsound, fun hfinds => ?_⟩
  cases b with
  | true => rfl
  | false =>
      obtain ⟨x, a, rfl⟩ := exists_eq_done (t := t) (by rw [hb]; rfl)
      cases hb
      obtain rfl : x = root := hnode
      exact absurd hfinds halone.not_finds

end

/-! ## A node whose successors have been met -/

section
variable {ι ν : Type*} {G : Graph ι ν} {m m' : Memory ν} {seen seen' : List ν} {t t' : Task ν}
  {x : ν}

/-- The task will answer that nothing has been found, or it has thrown. -/
def Task.Barren (seen : List ν) (t : Task ν) : Prop :=
  t.result = some none ∨ t.result = some (some false) ∨ ∃ y ∈ seen, t = .call y

/-- All successors of the node are on the list, so the tasks for it find nothing. -/
structure Shadowed (G : Graph ι ν) (x : ν) (m : Memory ν) (seen : List ν) (t : Task ν) : Prop where
  goal : G.goal x = false
  successors : ∀ y, G.Edge x y → y ∈ seen
  entry : m.entry x ≠ .ready true
  parts : ¬ t.Has fun u => ∃ ts, u = .body x ts ∧ ∃ v ∈ ts, ¬ v.Barren seen

theorem Task.Barren.mono (hsub : seen ⊆ seen') (h : t.Barren seen) : t.Barren seen' := by
  obtain h | h | ⟨y, hy, h⟩ := h
  · exact .inl h
  · exact .inr (.inl h)
  · exact .inr (.inr ⟨y, hsub hy, h⟩)

theorem not_conclude_of_barren {subtasks : List (Task ν)} (hgoal : G.goal x = false)
    (h : ∀ v ∈ subtasks, v.Barren seen) :
    conclude (G.goal x) (subtasks.filterMap Task.result) ≠ some true := by
  intro htrue
  rcases (conclude_eq_some.mp htrue).2.mp rfl with h' | h'
  · rw [hgoal] at h'
    cases h'
  · obtain ⟨y, hy⟩ := mem_filterMap_result.mp h'
    obtain hres | hres | ⟨_, _, hres⟩ := h _ hy
    · cases hres
    · cases hres
    · cases hres

theorem Shadowed.parts_mono (hsub : seen ⊆ seen')
    (h : ¬ t.Has fun u => ∃ ts, u = .body x ts ∧ ∃ v ∈ ts, ¬ v.Barren seen) :
    ¬ t.Has fun u => ∃ ts, u = .body x ts ∧ ∃ v ∈ ts, ¬ v.Barren seen' := by
  intro hhas
  apply h
  induction hhas with
  | here hP =>
      obtain ⟨ts, rfl, v, hv, hnot⟩ := hP
      exact .here ⟨ts, rfl, v, hv, fun hb => hnot (hb.mono hsub)⟩
  | there hmem _ ih => exact .there hmem (ih fun hhas => h (.there hmem hhas))

variable [DecidableEq ν]

theorem Step.barren (honce : G.once = true) (h : Step G m seen t m' seen' t')
    (ht : t.Barren seen) : t'.Barren seen' := by
  obtain hres | hres | ⟨y, hy, rfl⟩ := ht
  · obtain ⟨z, a, rfl⟩ := exists_eq_done (t := t) (by rw [hres]; rfl)
    cases h
  · obtain ⟨z, a, rfl⟩ := exists_eq_done (t := t) (by rw [hres]; rfl)
    cases h
  · cases h with
    | revisit => exact .inr (.inl rfl)
    | known hseen | wait hseen | miss hseen => exact absurd hy (hseen honce)

theorem Step.shadow_parts (honce : G.once = true) (h : Step G m seen t m' seen' t')
    (hsucc : ∀ y, G.Edge x y → y ∈ seen)
    (ht : ¬ t.Has fun u => ∃ ts, u = .body x ts ∧ ∃ v ∈ ts, ¬ v.Barren seen) :
    ¬ t'.Has fun u => ∃ ts, u = .body x ts ∧ ∃ v ∈ ts, ¬ v.Barren seen' := by
  induction h with
  | @expand z i xs hnext =>
      rw [has_body]
      rintro (⟨ts, heq, v, hv, hnot⟩ | ⟨u, hu, hhas⟩)
      · obtain ⟨rfl, rfl⟩ := Task.body.inj heq
        obtain ⟨y, hy, rfl⟩ := List.mem_map.mp hv
        exact hnot (.inr (.inr ⟨y, hsucc y ⟨i, xs, hnext, hy⟩, rfl⟩))
      · obtain ⟨y, -, rfl⟩ := List.mem_map.mp hu
        simp at hhas
  | @within m' seen' z t t' before after _ hstep ih =>
      have hsub := hstep.seen_subset
      rw [has_body, not_or] at ht ⊢
      obtain ⟨hself, hparts⟩ := ht
      have hsame : ¬ t.Has fun u => ∃ ts, u = .body x ts ∧ ∃ v ∈ ts, ¬ v.Barren seen :=
        fun hhas => hparts ⟨t, List.mem_append_right _ List.mem_cons_self, hhas⟩
      constructor
      · rintro ⟨ts, heq, v, hv, hnot⟩
        obtain ⟨rfl, rfl⟩ := Task.body.inj heq
        have hall : ∀ v ∈ before ++ t :: after, v.Barren seen := fun v hv => by
          by_contra hb
          exact hself ⟨_, rfl, v, hv, hb⟩
        simp only [List.forall_mem_append, List.forall_mem_cons] at hall
        obtain ⟨hbefore, hmid, hafter⟩ := hall
        apply hnot
        rcases List.mem_append.mp hv with hv | hv
        · exact (hbefore v hv).mono hsub
        rcases List.mem_cons.mp hv with rfl | hv
        · exact hstep.barren honce hmid
        · exact (hafter v hv).mono hsub
      · rintro ⟨u, hu, hhas⟩
        rcases List.mem_append.mp hu with hmem | hmem
        · exact Shadowed.parts_mono hsub
            (fun h => hparts ⟨u, List.mem_append_left _ hmem, h⟩) hhas
        rcases List.mem_cons.mp hmem with rfl | hmem
        · exact ih hsame hhas
        · exact Shadowed.parts_mono hsub
            (fun h => hparts ⟨u, List.mem_append_right _ (List.mem_cons_of_mem _ hmem), h⟩) hhas
  | _ => simp

theorem Step.shadow_entry (hgoal : G.goal x = false) (h : Step G m seen t m' seen' t')
    (hm : m.entry x ≠ .ready true)
    (ht : ¬ t.Has fun u => ∃ ts, u = .body x ts ∧ ∃ v ∈ ts, ¬ v.Barren seen) :
    m'.entry x ≠ .ready true := by
  induction h with
  | miss =>
      rw [entry_set]
      split
      · intro hready
        cases hready
      · exact hm
  | fail =>
      rw [entry_finish]
      split
      · intro hready
        cases hready
      · exact hm
  | @finish z ts hended =>
      rw [entry_finish]
      split
      · next hz =>
          subst hz
          have hall : ∀ v ∈ ts, v.Barren seen := fun v hv => by
            by_contra hb
            exact ht (.here ⟨ts, rfl, v, hv, hb⟩)
          have hne := not_conclude_of_barren hgoal hall
          intro hready
          cases hc : conclude (G.goal x) (ts.filterMap Task.result) with
          | none =>
              rw [hc] at hready
              cases hready
          | some b =>
              rw [hc] at hready hne
              cases hready
              exact hne rfl
      · exact hm
  | within _ _ ih =>
      exact ih fun hhas => ht (.there (List.mem_append_right _ List.mem_cons_self) hhas)
  | _ => exact hm

theorem Shadowed.step (honce : G.once = true) (h : Shadowed G x m seen t)
    (hstep : Step G m seen t m' seen' t') : Shadowed G x m' seen' t' where
  goal := h.goal
  successors := fun y hy => hstep.seen_subset (h.successors y hy)
  entry := hstep.shadow_entry h.goal h.entry h.parts
  parts := hstep.shadow_parts honce h.successors h.parts

end

end MemoSearch
