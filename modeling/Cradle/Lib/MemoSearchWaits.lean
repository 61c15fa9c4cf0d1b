import Cradle.Lib.MemoSearchAlone

/-!
# Searches that wait for each other

Where no node leads back to itself, searches that wait for answers that others compute do not
block: an answer that is waited for is being computed by a task that is under way, and what that
task waits for lies below it.
-/

namespace MemoSearch

section
variable {ι ν : Type*}

/-- The task that computes the answer. -/
def Task.Owns (x : ν) (t : Task ν) : Prop :=
  t.Has fun u => u = .opening x ∨ ∃ ts, u = .body x ts

/-- The attempt has ended or is under way. -/
def Memory.Attempted (m : Memory ν) (x : ν) (attempt : ℕ) : Prop :=
  attempt < (m.outcomes x).length ∨ attempt = (m.outcomes x).length ∧ m.entry x = .computing

/-- The task waits only for attempts that there are. -/
def Task.Waits (m : Memory ν) (t : Task ν) : Prop :=
  ¬ t.Has fun u => ∃ x attempt, u = .await x attempt ∧ ¬ m.Attempted x attempt

/-- The subtasks are about successors. -/
def Task.Descends (G : Graph ι ν) (t : Task ν) : Prop :=
  ¬ t.Has fun u => ∃ x ts, u = .body x ts ∧ ∃ v ∈ ts, ¬ G.Edge x v.node

structure World.Orderly (G : Graph ι ν) (w : World ν) : Prop where
  owned : ∀ x, w.memory.entry x = .computing → ∃ s ∈ w.searches, s.task.Owns x
  waits : ∀ s ∈ w.searches, s.task.Waits w.memory
  descends : ∀ s ∈ w.searches, s.task.Descends G

variable {G : Graph ι ν} {m m' : Memory ν} {seen seen' : List ν} {t t' : Task ν} {x y : ν}
  {ts : List (Task ν)}

theorem waits_body : (Task.body x ts).Waits m ↔ ∀ t ∈ ts, t.Waits m := by
  simp [Task.Waits]

theorem descends_body :
    (Task.body x ts).Descends G ↔ (∀ t ∈ ts, G.Edge x t.node) ∧ ∀ t ∈ ts, t.Descends G := by
  simp [Task.Descends]

theorem owns_body : (Task.body y ts).Owns x ↔ y = x ∨ ∃ t ∈ ts, t.Owns x := by
  simp [Task.Owns]

theorem Task.Waits.mono (h : t.Waits m) (hm : ∀ x n, m.Attempted x n → m'.Attempted x n) :
    t.Waits m' := by
  intro hhas
  refine h (hhas.imp ?_)
  rintro u ⟨x, n, rfl, hnot⟩
  exact ⟨x, n, rfl, fun hatt => hnot (hm x n hatt)⟩

/-- What a task waits for lies below its node. -/
theorem Task.Descends.below {attempt : ℕ} (h : t.Descends G)
    (hhas : t.Has (· = .await y attempt)) :
    t = .await y attempt ∨ Relation.TransGen G.Edge t.node y := by
  induction hhas with
  | here heq => exact .inl heq
  | @there x u subtasks hmem _ ih =>
      rw [descends_body] at h
      have hedge := h.1 _ hmem
      rcases ih (h.2 _ hmem) with rfl | hpath
      · exact .inr (.single hedge)
      · exact .inr (.head hedge hpath)

theorem Task.Descends.part {P : Task ν → Prop} (h : t.Descends G) (hhas : t.Has P) :
    ∃ u, P u ∧ u.Descends G ∧ t.Has (· = u) := by
  induction hhas with
  | here hP => exact ⟨_, hP, h, .here rfl⟩
  | there hmem _ ih =>
      obtain ⟨u, hP, hu, hhas⟩ := ih ((descends_body.mp h).2 _ hmem)
      exact ⟨u, hP, hu, .there hmem hhas⟩

/-- An attempt that is waited for and has not ended is under way. -/
theorem World.Orderly.computing {w : World ν} (hw : w.Orderly G) {s : Search ν}
    (hs : s ∈ w.searches) {attempt : ℕ} (hwait : s.task.Has (· = .await x attempt))
    (hnone : (w.memory.outcomes x)[attempt]? = none) : w.memory.entry x = .computing := by
  by_contra hentry
  refine hw.waits s hs (hwait.imp fun u hu => ⟨x, attempt, hu, ?_⟩)
  rintro (hlt | ⟨-, hcomp⟩)
  · rw [List.getElem?_eq_getElem hlt] at hnone
    cases hnone
  · exact hentry hcomp

theorem World.Orderly.empty (G : Graph ι ν) :
    ∀ w ∈ ({⟨.ofAnswers fun _ => none, []⟩} : Set (World ν)), w.Orderly G := by
  rintro w rfl
  refine ⟨fun x hx => ?_, fun s hs => ?_, fun s hs => ?_⟩
  · cases hx
  · cases hs
  · cases hs

variable [DecidableEq ν]

/-! ## The steps -/

theorem outcomes_finish (m : Memory ν) (x y : ν) (answer : Option Bool) :
    (m.finish x answer).outcomes y =
      if y = x then m.outcomes x ++ [answer] else m.outcomes y := by
  simp [Memory.finish, Function.update_apply]

theorem Memory.Attempted.finish {n : ℕ} {answer : Option Bool} (h : m.Attempted x n) (y : ν) :
    (m.finish y answer).Attempted x n := by
  unfold Memory.Attempted at h ⊢
  rw [outcomes_finish, entry_finish]
  split
  · next hxy =>
      subst hxy
      rw [List.length_append, List.length_singleton]
      omega
  · exact h

theorem Step.attempted {n : ℕ} (h : Step G m seen t m' seen' t') (hx : m.Attempted x n) :
    m'.Attempted x n := by
  induction h with
  | miss =>
      refine hx.imp_right fun ⟨hn, hentry⟩ => ⟨hn, ?_⟩
      rw [entry_set]
      split
      · rfl
      · exact hentry
  | fail | finish => exact hx.finish _
  | within _ _ ih => exact ih
  | _ => exact hx

theorem Step.waits (h : Step G m seen t m' seen' t') (ht : t.Waits m) : t'.Waits m' := by
  induction h with
  | wait _ hentry => simpa [Task.Waits] using .inr ⟨rfl, hentry⟩
  | expand =>
      rw [waits_body]
      intro u hu
      obtain ⟨y, -, rfl⟩ := List.mem_map.mp hu
      simp [Task.Waits]
  | within _ hstep ih =>
      rw [waits_body] at ht ⊢
      simp only [List.forall_mem_append, List.forall_mem_cons] at ht ⊢
      obtain ⟨hbefore, hmid, hafter⟩ := ht
      have hmono := fun x n => hstep.attempted (x := x) (n := n)
      exact ⟨fun u hu => (hbefore u hu).mono hmono, ih hmid,
        fun u hu => (hafter u hu).mono hmono⟩
  | _ => simp [Task.Waits]

theorem Step.descends (h : Step G m seen t m' seen' t') (ht : t.Descends G) :
    t'.Descends G := by
  induction h with
  | @expand z i xs hnext =>
      rw [descends_body]
      refine ⟨fun u hu => ?_, fun u hu => ?_⟩
      · obtain ⟨y, hy, rfl⟩ := List.mem_map.mp hu
        exact ⟨i, xs, hnext, hy⟩
      · obtain ⟨y, -, rfl⟩ := List.mem_map.mp hu
        simp [Task.Descends]
  | within _ hstep ih =>
      rw [descends_body] at ht ⊢
      simp only [List.forall_mem_append, List.forall_mem_cons] at ht ⊢
      obtain ⟨⟨hebefore, hemid, heafter⟩, hbefore, hmid, hafter⟩ := ht
      rw [hstep.node_eq]
      exact ⟨⟨hebefore, hemid, heafter⟩, hbefore, ih hmid, hafter⟩
  | _ => simp [Task.Descends]

theorem of_ne_computing (answer : Option Bool) : Entry.of answer ≠ .computing := by
  cases answer <;> simp [Entry.of]

/-- Who computes an answer does so until it is there. -/
theorem Step.owns (h : Step G m seen t m' seen' t') (hx : m'.entry x = .computing)
    (ht : t.Owns x) : t'.Owns x := by
  induction h with
  | @expand z =>
      obtain rfl : z = x := by simpa [Task.Owns] using ht
      exact owns_body.mpr (.inl rfl)
  | @fail z =>
      obtain rfl : z = x := by simpa [Task.Owns] using ht
      rw [entry_finish, if_pos rfl] at hx
      exact absurd hx (of_ne_computing _)
  | @finish z ts hended =>
      rcases owns_body.mp ht with rfl | ⟨u, hu, howns⟩
      · rw [entry_finish, if_pos rfl] at hx
        exact absurd hx (of_ne_computing _)
      · obtain ⟨y, a, rfl⟩ := exists_eq_done (hended u hu)
        simp [Task.Owns] at howns
  | @within _ _ z _ _ before after _ _ ih =>
      rw [owns_body] at ht ⊢
      refine ht.imp_right ?_
      rintro ⟨u, hu, howns⟩
      rcases List.mem_append.mp hu with hu | hu
      · exact ⟨u, List.mem_append_left _ hu, howns⟩
      rcases List.mem_cons.mp hu with rfl | hu
      · exact ⟨_, List.mem_append_right _ List.mem_cons_self, ih hx howns⟩
      · exact ⟨u, List.mem_append_right _ (List.mem_cons_of_mem _ hu), howns⟩
  | _ => simp [Task.Owns] at ht

/-- Who begins to compute an answer owns it. -/
theorem Step.owns_new (h : Step G m seen t m' seen' t') (hx : m'.entry x = .computing)
    (hold : m.entry x ≠ .computing) : t'.Owns x := by
  induction h with
  | @miss z =>
      rw [entry_set] at hx
      split at hx
      · next heq => simpa [Task.Owns] using heq.symm
      · exact absurd hx hold
  | fail | finish =>
      rw [entry_finish] at hx
      split at hx
      · exact absurd hx (of_ne_computing _)
      · exact absurd hx hold
  | within _ _ ih =>
      exact owns_body.mpr (.inr ⟨_, List.mem_append_right _ List.mem_cons_self, ih hx⟩)
  | _ => exact absurd hx hold

/-! ## Runs -/

theorem World.Orderly.step {w w' : World ν} {a : Action ι ν} (hw : w.Orderly G)
    (h : World.step G w a = some w') : w'.Orderly G := by
  obtain ⟨x, -, rfl⟩ | ⟨k, path, outcome, s, m, seen, t, -, hs, hres, rfl⟩ |
    ⟨x, b, -, hentry, rfl⟩ | ⟨x, -, rfl⟩ := World.step_cases h
  · refine ⟨fun y hy => ?_, fun s hs => ?_, fun s hs => ?_⟩
    · obtain ⟨s, hs, howns⟩ := hw.owned y hy
      exact ⟨s, List.mem_append_left _ hs, howns⟩
    · rcases List.mem_append.mp hs with hs | hs
      · exact hw.waits s hs
      · obtain rfl := List.mem_singleton.mp hs
        simp [Task.Waits]
    · rcases List.mem_append.mp hs with hs | hs
      · exact hw.descends s hs
      · obtain rfl := List.mem_singleton.mp hs
        simp [Task.Descends]
  · have hone := step_of_resume hres
    have hmem : s ∈ w.searches := List.mem_of_getElem? hs
    have hnew : (⟨s.root, seen, t⟩ : Search ν) ∈ w.searches.set k ⟨s.root, seen, t⟩ := by
      obtain ⟨hlt, -⟩ := List.getElem?_eq_some_iff.mp hs
      exact List.mem_set hlt _
    refine ⟨fun y hy => ?_, fun s' hs' => ?_, fun s' hs' => ?_⟩
    · by_cases hold : w.memory.entry y = .computing
      · obtain ⟨s', hs', howns⟩ := hw.owned y hold
        obtain ⟨j, hj⟩ := List.getElem?_of_mem hs'
        by_cases hjk : j = k
        · subst hjk
          rw [hs] at hj
          cases hj
          exact ⟨_, hnew, hone.owns hy howns⟩
        · refine ⟨s', ?_, howns⟩
          apply List.mem_of_getElem? (i := j)
          rw [List.getElem?_set_ne (Ne.symm hjk)]
          exact hj
      · exact ⟨_, hnew, hone.owns_new hy hold⟩
    · rcases List.mem_or_eq_of_mem_set hs' with hs' | rfl
      · exact (hw.waits s' hs').mono fun x n => hone.attempted
      · exact hone.waits (hw.waits s hmem)
    · rcases List.mem_or_eq_of_mem_set hs' with hs' | rfl
      · exact hw.descends s' hs'
      · exact hone.descends (hw.descends s hmem)
  · refine ⟨fun y hy => ?_, fun s hs => ?_, hw.descends⟩
    · rw [entry_set] at hy
      split at hy
      · cases hy
      · exact hw.owned y hy
    · refine (hw.waits s hs).mono fun y n hn => hn.imp_right fun ⟨hlen, hcomp⟩ => ⟨hlen, ?_⟩
      rw [entry_set]
      split
      · next heq =>
          rw [heq, hentry] at hcomp
          cases hcomp
      · exact hcomp
  · exact ⟨hw.owned, hw.waits, hw.descends⟩

/-- What a part can do, the task can do, when the subtasks need not start in order. -/
theorem resume_of_part (horder : G.inOrder = false) {u : Task ν} (h : t.Has (· = u)) :
    ∃ base, ∀ path outcome m seen, (resume G outcome path m seen u).isSome = true →
      (resume G outcome (base ++ path) m seen t).isSome = true := by
  induction h with
  | here heq =>
      subst heq
      exact ⟨[], fun _ _ _ _ h => h⟩
  | @there x v subtasks hmem _ ih =>
      obtain ⟨base, hbase⟩ := ih
      obtain ⟨i, hi⟩ := List.getElem?_of_mem hmem
      refine ⟨i :: base, fun path outcome m seen h => ?_⟩
      obtain ⟨r, hr⟩ := Option.isSome_iff_exists.mp (hbase path outcome m seen h)
      simp [resume, hi, horder, hr]

/-- A search can go on from a part of it. -/
theorem World.step_of_part (horder : G.inOrder = false) {w : World ν} {s : Search ν}
    (hs : s ∈ w.searches) {u : Task ν} (hpart : s.task.Has (· = u)) {path : List ℕ}
    (h : ∀ outcome seen, (resume G outcome path w.memory seen u).isSome = true) :
    ∃ k path, ∀ outcome, (World.step G w (.resume k path outcome)).isSome = true := by
  obtain ⟨k, hk⟩ := List.getElem?_of_mem hs
  obtain ⟨base, hbase⟩ := resume_of_part horder hpart
  refine ⟨k, base ++ path, fun outcome => ?_⟩
  obtain ⟨r, hr⟩ := Option.isSome_iff_exists.mp
    (hbase path outcome w.memory s.seen (h outcome s.seen))
  simp [World.step, hk, hr]

/-- The computation of an answer is under way somewhere. -/
theorem World.Orderly.resume_of_computing (horder : G.inOrder = false) {w : World ν}
    (hw : w.Orderly G) (hwf : WellFounded fun y x => G.Edge x y)
    (hx : w.memory.entry x = .computing) :
    ∃ k path, ∀ outcome, (World.step G w (.resume k path outcome)).isSome = true := by
  induction x using hwf.transGen.induction with
  | h x ih =>
      obtain ⟨s, hs, howns⟩ := hw.owned x hx
      obtain ⟨u, hu, hdesc, hpart⟩ := (hw.descends s hs).part howns
      have hnode : u.node = x := by
        rcases hu with rfl | ⟨ts, rfl⟩
        · rfl
        · rfl
      have hres : u.result = none := by
        rcases hu with rfl | ⟨ts, rfl⟩
        · rfl
        · rfl
      rcases exists_resume G w.memory u hres with ⟨path, hpath⟩ | ⟨y, attempt, hwait, hnone⟩
      · exact World.step_of_part horder hs hpart hpath
      · have hcomp := hw.computing hs (hpart.trans fun v hv => hv ▸ hwait) hnone
        rcases hdesc.below hwait with rfl | hbelow
        · rcases hu with hu | ⟨ts, hu⟩
          · cases hu
          · cases hu
        · rw [hnode] at hbelow
          exact ih y (Relation.transGen_swap.mp hbelow) hcomp

/-- As long as a search has not ended, some search can go on. -/
theorem World.Orderly.enabled (horder : G.inOrder = false) {w : World ν} (hw : w.Orderly G)
    (hwf : WellFounded fun y x => G.Edge x y) {s : Search ν} (hs : s ∈ w.searches)
    (hres : s.task.result = none) :
    ∃ k path, ∀ outcome, (World.step G w (.resume k path outcome)).isSome = true := by
  rcases exists_resume G w.memory s.task hres with ⟨path, hpath⟩ | ⟨x, attempt, hwait, hnone⟩
  · exact World.step_of_part horder hs (.here rfl) hpath
  · exact hw.resume_of_computing horder hwf (hw.computing hs hwait hnone)

theorem World.Orderly.reachable {init : Set (World ν)} (hinit : ∀ w ∈ init, w.Orderly G)
    {w : World ν} {ok : World ν → Action ι ν → Prop}
    (h : Transition.Reachable (World.step G) ok init w) : w.Orderly G :=
  h.invariant hinit fun _ _ _ hw _ hstep => hw.step hstep

end

end MemoSearch
