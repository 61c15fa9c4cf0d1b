import Cradle.Lib.Transition
import Mathlib.Algebra.BigOperators.Group.List.Basic
import Mathlib.Data.Finset.Card
import Mathlib.Logic.Function.Basic
import Mathlib.Logic.Relation

/-!
# Searches that share their answers

A search asks at a node.  Unless the answer is known, the node is opened, and the nodes that it
leads to are asked in tasks of their own, which start in order and then interleave.  Answers are
kept in a memory that all searches share; who asks for an answer that is being computed waits for
it.  A search may also keep a list of the nodes that it has met, and take a node on that list as
one that has nothing to add.
-/

namespace MemoSearch

/-- `next i x` is where `x` leads, when it is opened with the outcome `i`.  A search may list the
nodes that it has met, to look into them `once`, and may start the subtasks of a node in order. -/
structure Graph (ι ν : Type*) where
  next : ι → ν → Option (List ν)
  goal : ν → Bool
  once : Bool
  inOrder : Bool

inductive Task (ν : Type*)
  | call (x : ν)
  | await (x : ν) (attempt : ℕ)
  | opening (x : ν)
  | body (x : ν) (subtasks : List (Task ν))
  | done (x : ν) (answer : Option Bool)

inductive Entry
  | absent
  | computing
  | ready (answer : Bool)
  deriving DecidableEq

/-- The answers, how the attempts to compute one have ended, and the nodes that have been
opened. -/
structure Memory (ν : Type*) where
  entry : ν → Entry
  outcomes : ν → List (Option Bool)
  opened : List ν

structure Search (ν : Type*) where
  root : ν
  seen : List ν
  task : Task ν

structure World (ν : Type*) where
  memory : Memory ν
  searches : List (Search ν)

/-- The entry that a result leaves behind. -/
def Entry.of : Option Bool → Entry
  | some answer => .ready answer
  | none => .absent

/-- A memory that holds these answers. -/
def Memory.ofAnswers {ν : Type*} (answers : ν → Option Bool) : Memory ν :=
  ⟨fun x => .of (answers x), fun _ => [], []⟩

/-- One search that has not begun. -/
def World.asking {ν : Type*} (m : Memory ν) (x : ν) : World ν := ⟨m, [⟨x, [], .call x⟩]⟩

/-- Whether a task has been started. -/
def Task.started {ν : Type*} : Task ν → Bool
  | .call _ => false
  | _ => true

/-- How a task has ended; without an answer it has thrown. -/
def Task.result {ν : Type*} : Task ν → Option (Option Bool)
  | .done _ answer => some answer
  | _ => none

/-- The node that a task is about. -/
def Task.node {ν : Type*} : Task ν → ν
  | .call x | .await x _ | .opening x | .body x _ | .done x _ => x

/-- One of the subtasks has thrown, or one has found something, or none has. -/
def conclude (goal : Bool) (answers : List (Option Bool)) : Option Bool :=
  if none ∈ answers then none else some (goal || decide (some true ∈ answers))

theorem mem_filterMap_result {ν : Type*} {ts : List (Task ν)} {a : Option Bool} :
    a ∈ ts.filterMap Task.result ↔ ∃ x, Task.done x a ∈ ts := by
  rw [List.mem_filterMap]
  constructor
  · rintro ⟨t, ht, hres⟩
    cases t with
    | done x b =>
        cases hres
        exact ⟨x, ht⟩
    | _ => cases hres
  · rintro ⟨x, hx⟩
    exact ⟨_, hx, rfl⟩

theorem exists_eq_done {ν : Type*} {t : Task ν} (h : t.result.isSome = true) :
    ∃ x a, t = .done x a := by
  cases t with
  | done x a => exact ⟨x, a, rfl⟩
  | _ => cases h

theorem conclude_eq_some {goal b : Bool} {answers : List (Option Bool)} :
    conclude goal answers = some b ↔
      none ∉ answers ∧ (b = true ↔ goal = true ∨ some true ∈ answers) := by
  unfold conclude
  split
  · next h => simp [h]
  · next h =>
      cases b <;> simp [h]

def Memory.open {ν : Type*} (m : Memory ν) (x : ν) : Memory ν :=
  { m with opened := x :: m.opened }

section
variable {ι ν : Type*} [DecidableEq ν]

def Memory.set (m : Memory ν) (x : ν) (e : Entry) : Memory ν :=
  { m with entry := Function.update m.entry x e }

/-- An attempt has ended. -/
def Memory.finish (m : Memory ν) (x : ν) (answer : Option Bool) : Memory ν :=
  { m with
    entry := Function.update m.entry x (.of answer)
    outcomes := Function.update m.outcomes x (m.outcomes x ++ [answer]) }

/-- A call looks at the list of nodes, then at the memory. -/
def begin (G : Graph ι ν) (m : Memory ν) (seen : List ν) (x : ν) :
    Memory ν × List ν × Task ν :=
  if G.once = true ∧ x ∈ seen then (m, seen, .done x (some false))
  else
    match m.entry x with
    | .ready answer => (m, x :: seen, .done x (some answer))
    | .computing => (m, x :: seen, .await x (m.outcomes x).length)
    | .absent => (m.set x .computing, x :: seen, .opening x)

def expand (G : Graph ι ν) (outcome : Option ι) (m : Memory ν) (x : ν) : Memory ν × Task ν :=
  match outcome.bind (G.next · x) with
  | some xs => (m.open x, .body x (xs.map .call))
  | none => (m.finish x none, .done x none)

/-- The task at the end of `path` goes on.  One that waits for an attempt shares its outcome. -/
def resume (G : Graph ι ν) (outcome : Option ι) :
    List ℕ → Memory ν → List ν → Task ν → Option (Memory ν × List ν × Task ν)
  | [], m, seen, .call x => some (begin G m seen x)
  | [], m, seen, .opening x =>
      let (m, t) := expand G outcome m x
      some (m, seen, t)
  | [], m, seen, .await x attempt =>
      match (m.outcomes x)[attempt]? with
      | some answer => some (m, seen, .done x answer)
      | none => none
  | [], m, seen, .body x subtasks =>
      if subtasks.all (·.result.isSome) then
        let answer := conclude (G.goal x) (subtasks.filterMap Task.result)
        some (m.finish x answer, seen, .done x answer)
      else none
  | i :: path, m, seen, .body x subtasks =>
      match subtasks[i]? with
      | some t =>
          if !G.inOrder || (subtasks.take i).all Task.started then
            match resume G outcome path m seen t with
            | some (m, seen, t) => some (m, seen, .body x (subtasks.set i t))
            | none => none
          else none
      | none => none
  | _, _, _, _ => none

inductive Action (ι ν : Type*)
  | ask (x : ν)
  | resume (search : ℕ) (path : List ℕ) (outcome : Option ι)
  | evict (x : ν)
  | elsewhere (x : ν)

/-- A new search, a step of one, an answer that is dropped, or a node that somebody else opens. -/
def World.step (G : Graph ι ν) (w : World ν) : Action ι ν → Option (World ν)
  | .ask x => some { w with searches := w.searches ++ [⟨x, [], .call x⟩] }
  | .resume k path outcome =>
      match w.searches[k]? with
      | some s =>
          match resume G outcome path w.memory s.seen s.task with
          | some (m, seen, t) => some ⟨m, w.searches.set k ⟨s.root, seen, t⟩⟩
          | none => none
      | none => none
  | .evict x =>
      match w.memory.entry x with
      | .ready _ => some { w with memory := w.memory.set x .absent }
      | _ => none
  | .elsewhere x => some { w with memory := w.memory.open x }

/-! ## One step of a task -/

/-- What a task does at one of its leaves, and what goes on around it. -/
inductive Step (G : Graph ι ν) :
    Memory ν → List ν → Task ν → Memory ν → List ν → Task ν → Prop
  | revisit {m seen x} : G.once = true → x ∈ seen →
      Step G m seen (.call x) m seen (.done x (some false))
  | known {m seen x answer} : (G.once = true → x ∉ seen) → m.entry x = .ready answer →
      Step G m seen (.call x) m (x :: seen) (.done x (some answer))
  | wait {m seen x} : (G.once = true → x ∉ seen) → m.entry x = .computing →
      Step G m seen (.call x) m (x :: seen) (.await x (m.outcomes x).length)
  | miss {m seen x} : (G.once = true → x ∉ seen) → m.entry x = .absent →
      Step G m seen (.call x) (m.set x .computing) (x :: seen) (.opening x)
  | expand {m seen x i xs} : G.next i x = some xs →
      Step G m seen (.opening x) (m.open x) seen (.body x (xs.map .call))
  | fail {m seen x} : Step G m seen (.opening x) (m.finish x none) seen (.done x none)
  | join {m seen x attempt answer} : (m.outcomes x)[attempt]? = some answer →
      Step G m seen (.await x attempt) m seen (.done x answer)
  | finish {m seen x subtasks} : (∀ u ∈ subtasks, u.result.isSome = true) →
      Step G m seen (.body x subtasks)
        (m.finish x (conclude (G.goal x) (subtasks.filterMap Task.result))) seen
        (.done x (conclude (G.goal x) (subtasks.filterMap Task.result)))
  | within {m seen m' seen' x t t' before after} :
      (G.inOrder = true → ∀ u ∈ before, u.started = true) →
      Step G m seen t m' seen' t' →
      Step G m seen (.body x (before ++ t :: after)) m' seen' (.body x (before ++ t' :: after))

variable {G : Graph ι ν} {outcome : Option ι} {m m' : Memory ν} {seen seen' : List ν}
  {t t' : Task ν} {x y : ν}

theorem step_begin : Step G m seen (.call x) (begin G m seen x).1 (begin G m seen x).2.1
    (begin G m seen x).2.2 := by
  unfold begin
  split
  · next h => exact .revisit h.1 h.2
  · next h =>
      have hseen : G.once = true → x ∉ seen := fun honce hx => h ⟨honce, hx⟩
      split
      · next hentry => exact .known hseen hentry
      · next hentry => exact .wait hseen hentry
      · next hentry => exact .miss hseen hentry

theorem step_expand : Step G m seen (.opening x) (expand G outcome m x).1 seen
    (expand G outcome m x).2 := by
  unfold expand
  split
  · next xs h =>
      obtain ⟨i, -, hi⟩ := Option.bind_eq_some_iff.mp h
      exact .expand hi
  · exact .fail

theorem set_eq_append {α : Type*} {xs : List α} {i : ℕ} {a : α} (h : xs[i]? = some a) (b : α) :
    xs = xs.take i ++ a :: xs.drop (i + 1) ∧ xs.set i b = xs.take i ++ b :: xs.drop (i + 1) := by
  obtain ⟨hi, rfl⟩ := List.getElem?_eq_some_iff.mp h
  exact ⟨by simp, List.set_eq_take_append_cons_drop.trans (if_pos hi)⟩

theorem step_of_resume {path : List ℕ}
    (h : resume G outcome path m seen t = some (m', seen', t')) :
    Step G m seen t m' seen' t' := by
  induction path generalizing t m' seen' t' with
  | nil =>
      cases t with
      | call x =>
          have hstep : Step G m seen (.call x) (begin G m seen x).1 (begin G m seen x).2.1
              (begin G m seen x).2.2 := step_begin
          rw [Option.some.inj h] at hstep
          exact hstep
      | await x attempt =>
          simp only [resume] at h
          split at h
          · next hanswer =>
              cases h
              exact .join hanswer
          · cases h
      | opening x =>
          have hstep : Step G m seen (.opening x) (expand G outcome m x).1 seen
              (expand G outcome m x).2 := step_expand
          simp only [resume, Option.some.injEq, Prod.mk.injEq] at h
          obtain ⟨rfl, rfl, rfl⟩ := h
          exact hstep
      | body x ts =>
          simp only [resume] at h
          split at h
          · next hended =>
              cases h
              exact .finish (List.all_eq_true.mp hended)
          · cases h
      | done x a => cases h
  | cons i path ih =>
      cases t with
      | body x ts =>
          simp only [resume] at h
          split at h
          · next t₁ ht =>
              split at h
              · next hstarted =>
                  split at h
                  · next hrec =>
                      cases h
                      obtain ⟨hts, hset⟩ := set_eq_append ht _
                      rw [hset]
                      nth_rewrite 1 [hts]
                      refine .within (fun horder => ?_) (ih hrec)
                      rw [horder, Bool.not_true, Bool.false_or] at hstarted
                      exact List.all_eq_true.mp hstarted
                  · cases h
              · cases h
          · cases h
      | call x => cases h
      | await x attempt => cases h
      | opening x => cases h
      | done x a => cases h

theorem Step.node_eq (h : Step G m seen t m' seen' t') : t'.node = t.node := by
  cases h <;> rfl

theorem Step.opened_subset (h : Step G m seen t m' seen' t') : m.opened ⊆ m'.opened := by
  induction h with
  | expand => exact List.subset_cons_self _ _
  | within _ _ ih => exact ih
  | _ => exact List.Subset.refl _

end

/-! ## What can be said of every answer -/

section
variable {ι ν : Type*}

/-- `A opened x answer` holds of the answer to a node met before, where the searches list these,
and of the answer that those of the successors lead to; and it stays true as more nodes are
opened. -/
structure Justified (G : Graph ι ν) (A : List ν → ν → Bool → Prop) : Prop where
  grow : ∀ {opened opened' x b}, opened ⊆ opened' → A opened x b → A opened' x b
  revisit : G.once = true → ∀ opened x, A opened x false
  conclude : ∀ {opened i x xs b}, G.next i x = some xs → x ∈ opened →
    (∀ y ∈ xs, ∃ c, A opened y c ∧ (c = true → b = true)) →
    (b = true → G.goal x = true ∨ ∃ y ∈ xs, A opened y true) → A opened x b

/-- The answers that a task has got so far. -/
inductive Task.Fits (G : Graph ι ν) (A : List ν → ν → Bool → Prop) (opened : List ν) :
    Task ν → Prop
  | call {x} : Fits G A opened (.call x)
  | await {x attempt} : Fits G A opened (.await x attempt)
  | opening {x} : Fits G A opened (.opening x)
  | body {x i subtasks} : G.next i x = some (subtasks.map Task.node) → x ∈ opened →
      (∀ t ∈ subtasks, Fits G A opened t) → Fits G A opened (.body x subtasks)
  | done {x answer} : (∀ b, answer = some b → A opened x b) → Fits G A opened (.done x answer)

/-- The answers that are kept. -/
structure Memory.Fits (A : List ν → ν → Bool → Prop) (m : Memory ν) : Prop where
  entry : ∀ x b, m.entry x = .ready b → A m.opened x b
  outcome : ∀ x b, some b ∈ m.outcomes x → A m.opened x b

structure World.Fits (G : Graph ι ν) (A : List ν → ν → Bool → Prop) (w : World ν) : Prop where
  memory : w.memory.Fits A
  searches : ∀ s ∈ w.searches, s.task.Fits G A w.memory.opened ∧ s.task.node = s.root

variable {G : Graph ι ν} {A : List ν → ν → Bool → Prop} {opened opened' : List ν}
  {seen seen' : List ν} {m m' : Memory ν} {t t' : Task ν} {x y : ν}

theorem Task.Fits.grow (hA : Justified G A) (hsub : opened ⊆ opened')
    (h : t.Fits G A opened) : t.Fits G A opened' := by
  induction h with
  | call => exact .call
  | await => exact .await
  | opening => exact .opening
  | body hnext hx _ ih => exact .body hnext (hsub hx) ih
  | done h => exact .done fun b hb => hA.grow hsub (h b hb)

theorem fits_body {before after : List (Task ν)} :
    (∀ u ∈ before ++ t :: after, u.Fits G A opened) ↔
      (∀ u ∈ before, u.Fits G A opened) ∧ t.Fits G A opened ∧
        ∀ u ∈ after, u.Fits G A opened := by
  simp [or_imp, forall_and]

theorem Memory.Fits.open (hA : Justified G A) (h : m.Fits A) : (m.open x).Fits A where
  entry := fun y b hy => hA.grow (List.subset_cons_self _ _) (h.entry y b hy)
  outcome := fun y b hy => hA.grow (List.subset_cons_self _ _) (h.outcome y b hy)

/-- The answer of a task all of whose subtasks have ended. -/
theorem Justified.concluded (hA : Justified G A) {subtasks : List (Task ν)} {b : Bool}
    (ht : (Task.body x subtasks).Fits G A opened)
    (hended : ∀ u ∈ subtasks, u.result.isSome = true)
    (hb : MemoSearch.conclude (G.goal x) (subtasks.filterMap Task.result) = some b) :
    A opened x b := by
  rw [conclude_eq_some] at hb
  obtain ⟨hnone, hb⟩ := hb
  cases ht with
  | body hnext hx hsub =>
      refine hA.conclude hnext hx ?_ ?_
      · intro y hy
        obtain ⟨u, hu, rfl⟩ := List.mem_map.mp hy
        obtain ⟨z, a, rfl⟩ := exists_eq_done (hended u hu)
        cases a with
        | none => exact absurd (mem_filterMap_result.mpr ⟨z, hu⟩) hnone
        | some c =>
            cases hsub _ hu with
            | done hc =>
                refine ⟨c, hc c rfl, fun htrue => hb.mpr (.inr ?_)⟩
                rw [← htrue]
                exact mem_filterMap_result.mpr ⟨z, hu⟩
      · intro htrue
        refine (hb.mp htrue).imp_right fun hmem => ?_
        obtain ⟨z, hz⟩ := mem_filterMap_result.mp hmem
        cases hsub _ hz with
        | done hc => exact ⟨z, List.mem_map.mpr ⟨_, hz, rfl⟩, hc true rfl⟩

/-- At the start there are no answers and no searches. -/
theorem World.Fits.empty (A : List ν → ν → Bool → Prop) :
    ∀ w ∈ ({⟨.ofAnswers fun _ => none, []⟩} : Set (World ν)), w.Fits G A := by
  rintro w rfl
  refine ⟨⟨fun x b hb => ?_, fun x b hb => ?_⟩, fun s hs => ?_⟩
  · cases hb
  · cases hb
  · cases hs

/-- The answer that a search ends with. -/
theorem World.Fits.answer {w : World ν} (hw : w.Fits G A) {s : Search ν} (hs : s ∈ w.searches)
    {b : Bool} (hb : s.task.result = some (some b)) : A w.memory.opened s.root b := by
  obtain ⟨hfits, hnode⟩ := hw.searches s hs
  obtain ⟨x, a, ht⟩ := exists_eq_done (t := s.task) (by rw [hb]; rfl)
  rw [ht] at hb hfits hnode
  cases hb
  cases hfits with
  | done h =>
      rw [← hnode]
      exact h b rfl

variable [DecidableEq ν]

theorem Memory.Fits.set (h : m.Fits A) {e : Entry} (he : ∀ b, e = .ready b → A m.opened x b) :
    (m.set x e).Fits A := by
  refine ⟨fun y b hy => ?_, h.outcome⟩
  by_cases hxy : y = x
  · subst hxy
    exact he b (by simpa [Memory.set] using hy)
  · exact h.entry y b (by simpa [Memory.set, hxy] using hy)

theorem Memory.Fits.finish (h : m.Fits A) {answer : Option Bool}
    (ha : ∀ b, answer = some b → A m.opened x b) : (m.finish x answer).Fits A := by
  have hset : (m.set x (.of answer)).Fits A := h.set fun b hb => by
    cases answer with
    | none => cases hb
    | some c =>
        cases hb
        exact ha _ rfl
  refine ⟨hset.entry, fun y b hy => ?_⟩
  by_cases hxy : y = x
  · subst hxy
    simp only [Memory.finish, Function.update_self, List.mem_append, List.mem_singleton] at hy
    exact hy.elim (h.outcome y b) fun h => ha b h.symm
  · exact h.outcome y b (by simpa [Memory.finish, hxy] using hy)

theorem Step.fits (hA : Justified G A) (h : Step G m seen t m' seen' t') (hm : m.Fits A)
    (ht : t.Fits G A m.opened) : m'.Fits A ∧ t'.Fits G A m'.opened := by
  induction h with
  | revisit honce _ =>
      refine ⟨hm, .done fun b hb => ?_⟩
      cases hb
      exact hA.revisit honce _ _
  | known _ hentry =>
      refine ⟨hm, .done fun b hb => ?_⟩
      cases hb
      exact hm.entry _ _ hentry
  | wait => exact ⟨hm, .await⟩
  | miss => exact ⟨hm.set (fun b hb => by cases hb), .opening⟩
  | expand hnext =>
      refine ⟨hm.open hA, .body (hnext.trans ?_) List.mem_cons_self ?_⟩
      · simp [Function.comp_def, Task.node]
      · intro t ht
        obtain ⟨y, -, rfl⟩ := List.mem_map.mp ht
        exact .call
  | fail => exact ⟨hm.finish fun b hb => (by cases hb), .done fun b hb => by cases hb⟩
  | join hanswer =>
      refine ⟨hm, .done fun b hb => hm.outcome _ b ?_⟩
      rw [← hb]
      exact List.mem_of_getElem? hanswer
  | finish hended =>
      exact ⟨hm.finish fun b hb => hA.concluded ht hended hb,
        .done fun b hb => hA.concluded ht hended hb⟩
  | within _ hstep ih =>
      cases ht with
      | body hnext hx hsub =>
          obtain ⟨hbefore, hmid, hafter⟩ := fits_body.mp hsub
          obtain ⟨hm', ht'⟩ := ih hmid
          have hgrow := hstep.opened_subset
          refine ⟨hm', .body (by simpa [hstep.node_eq] using hnext) (hgrow hx)
            (fits_body.mpr ⟨fun u hu => ?_, ht', fun u hu => ?_⟩)⟩
          · exact (hbefore u hu).grow hA hgrow
          · exact (hafter u hu).grow hA hgrow

/-! ## Runs -/

/-- What an action does to the world. -/
theorem World.step_cases {w w' : World ν} {a : Action ι ν} (h : World.step G w a = some w') :
    (∃ x, a = .ask x ∧ w' = { w with searches := w.searches ++ [⟨x, [], .call x⟩] }) ∨
    (∃ k path outcome s m seen t, a = .resume k path outcome ∧ w.searches[k]? = some s ∧
      MemoSearch.resume G outcome path w.memory s.seen s.task = some (m, seen, t) ∧
      w' = ⟨m, w.searches.set k ⟨s.root, seen, t⟩⟩) ∨
    (∃ x b, a = .evict x ∧ w.memory.entry x = .ready b ∧
      w' = { w with memory := w.memory.set x .absent }) ∨
    ∃ x, a = .elsewhere x ∧ w' = { w with memory := w.memory.open x } := by
  cases a with
  | ask x => exact .inl ⟨x, rfl, (Option.some.inj h).symm⟩
  | resume k path outcome =>
      simp only [World.step] at h
      split at h
      · next s hs =>
          split at h
          · next m seen t hres =>
              exact .inr (.inl ⟨k, path, outcome, s, m, seen, t, rfl, hs, hres,
                (Option.some.inj h).symm⟩)
          · cases h
      · cases h
  | evict x =>
      simp only [World.step] at h
      split at h
      · next b hb => exact .inr (.inr (.inl ⟨x, b, rfl, hb, (Option.some.inj h).symm⟩))
      · cases h
  | elsewhere x => exact .inr (.inr (.inr ⟨x, rfl, (Option.some.inj h).symm⟩))

theorem World.Fits.step (hA : Justified G A) {w w' : World ν} {a : Action ι ν} (hw : w.Fits G A)
    (h : World.step G w a = some w') : w'.Fits G A := by
  obtain ⟨x, -, rfl⟩ | ⟨k, path, outcome, s, m, seen, t, -, hs, hres, rfl⟩ |
    ⟨x, b, -, -, rfl⟩ | ⟨x, -, rfl⟩ := World.step_cases h
  · refine ⟨hw.memory, fun s hs => ?_⟩
    rcases List.mem_append.mp hs with hs | hs
    · exact hw.searches s hs
    · obtain rfl := List.mem_singleton.mp hs
      exact ⟨.call, rfl⟩
  · have hmem : s ∈ w.searches := List.mem_of_getElem? hs
    have hstep := step_of_resume hres
    obtain ⟨ht, hnode⟩ := hw.searches s hmem
    obtain ⟨hm', ht'⟩ := hstep.fits hA hw.memory ht
    refine ⟨hm', fun s' hs' => ?_⟩
    rcases List.mem_or_eq_of_mem_set hs' with hs' | rfl
    · obtain ⟨h', hnode'⟩ := hw.searches s' hs'
      exact ⟨h'.grow hA hstep.opened_subset, hnode'⟩
    · exact ⟨ht', hstep.node_eq.trans hnode⟩
  · exact ⟨hw.memory.set (fun b hb => by cases hb), hw.searches⟩
  · refine ⟨hw.memory.open hA, fun s hs => ?_⟩
    obtain ⟨h', hnode⟩ := hw.searches s hs
    exact ⟨h'.grow hA (List.subset_cons_self _ _), hnode⟩

/-- What is justified holds of all answers in every run of any number of searches. -/
theorem World.Fits.reachable (hA : Justified G A) {init : Set (World ν)}
    (hinit : ∀ w ∈ init, w.Fits G A) {w : World ν} {ok : World ν → Action ι ν → Prop}
    (h : Transition.Reachable (World.step G) ok init w) : w.Fits G A :=
  h.invariant hinit fun _ _ _ hw _ hstep => hw.step hA hstep

end

end MemoSearch
