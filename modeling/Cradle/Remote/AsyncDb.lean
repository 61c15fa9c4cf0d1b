import Cradle.Lib.Threads
import Cradle.Lib.Transition
import Mathlib.Logic.Function.Basic
import Mathlib.Logic.Relation

/-!
# The database of context trees

The server registers each context of an asynchronous resolution in `async_db`.  The root
is registered when the request is submitted; the other contexts are made by the thread
that resolves the request, one by one, where each is first added to its parent and then to
the database.  A client's `finish_async` walks the tree from its root and erases what it
finds.  A walk that comes too early misses the contexts that are yet to be registered.

The database is protected by a mutex, the lists of sub-contexts are not; each access to
one of them is taken to be one step.  `rootOf`,
`registered` and `removed` are not in the program: the root of each context, the contexts
that were ever registered, and the roots of the trees that `remove_tree` has removed.
-/

namespace Cradle.Remote

open Threads

/-- The shape of a request, seen by the tree builder; a value is a node without subs. -/
inductive ContextTree
  | node (subs : List ContextTree)

/-- The contexts with their subs, and `async_db`. -/
structure AsyncDb where
  nextId : ℕ := 1
  subs : ℕ → List ℕ := fun _ => []
  entries : List ℕ := []
  mutex : Bool := false
  rootOf : ℕ → ℕ := id
  registered : List ℕ := []
  removed : List ℕ := []

inductive DbInstr
  /-- `make_sub_ctx` up to `add_sub`. -/
  | makeSubCtx (parent : ℕ) (shape : ContextTree)
  /-- `register_local_async_ctx`. -/
  | register (id : ℕ)
  /-- `remove_tree` up to the walk. -/
  | removeTree (root : ℕ)
  /-- `remove_subtree` up to the erasure of the node. -/
  | removeSubtree (id : ℕ)
  | erase (id : ℕ)
  /-- The end of `remove_tree`. -/
  | removed (root : ℕ)

namespace AsyncDb

/-- `add`. -/
def add (db : AsyncDb) (id : ℕ) : AsyncDb :=
  { db with entries := id :: db.entries, registered := id :: db.registered }

/-- A new context below the given one. -/
def addSub (db : AsyncDb) (parent : ℕ) : AsyncDb :=
  { db with
    nextId := db.nextId + 1
    subs := Function.update db.subs parent (db.subs parent ++ [db.nextId])
    rootOf := Function.update db.rootOf db.nextId (db.rootOf parent) }

/-- A new root context. -/
def addRoot (db : AsyncDb) : AsyncDb :=
  { db with nextId := db.nextId + 1, rootOf := Function.update db.rootOf db.nextId db.nextId }

/-- One step; a thread that needs the mutex waits for it. -/
def exec (db : AsyncDb) : DbInstr → Effect AsyncDb DbInstr
  | .makeSubCtx parent (.node shapes) =>
      .next (db.addSub parent) (.register db.nextId :: shapes.map (.makeSubCtx db.nextId))
  | .register id => if db.mutex then .next db [.register id] else .next (db.add id) []
  | .removeTree root =>
      if db.mutex then .next db [.removeTree root]
      else if root ∈ db.entries then
        .next { db with mutex := true } [.removeSubtree root, .removed root]
      else .throws db
  | .removeSubtree id => .next db ((db.subs id).map .removeSubtree ++ [.erase id])
  | .erase id => .next { db with entries := db.entries.filter (· ≠ id) } []
  | .removed root => .next { db with mutex := false, removed := root :: db.removed } []

end AsyncDb

/-- Who a thread works for: the resolution of a root, or a client's `finish_async`. -/
inductive Role
  | resolve (root : ℕ)
  | finish (root : ℕ)
  deriving DecidableEq

structure DbSystem where
  db : AsyncDb := {}
  threads : List (Thread Role DbInstr) := []

namespace DbSystem

inductive Action
  /-- `submit_async`: make and register the root, and start the resolution. -/
  | submit (shape : ContextTree)
  /-- A client sends `finish_async` for a root that it got from `submit_async`. -/
  | finish (root : ℕ)
  | run (n : ℕ)

def step (s : DbSystem) : Action → Option DbSystem
  | .submit (.node shapes) =>
      if s.db.mutex then none
      else some {
        db := s.db.addRoot.add s.db.nextId
        threads := s.threads ++ [{ tag := .resolve s.db.nextId
                                   code := shapes.map (.makeSubCtx s.db.nextId) }] }
  | .finish root =>
      if ∃ t ∈ s.threads, t.tag = .resolve root then
        some { s with threads :=
          s.threads ++ [{ tag := .finish root, code := [.removeTree root] }] }
      else none
  | .run n => (stepPool AsyncDb.exec s.db s.threads n).map fun r => ⟨r.1, r.2⟩

def start : Set DbSystem := { s | s = {} }

/-- The tree with the given root is completely made and registered. -/
def Built (s : DbSystem) (root : ℕ) : Prop :=
  ∀ t ∈ s.threads, t.tag = .resolve root → t.code = []

/-- The root that the instruction starts to remove. -/
def removing : DbInstr → Option ℕ
  | .removeTree root => some root
  | _ => none

/-- A tree is removed when it is completely built. -/
def InOrder (s : DbSystem) : Action → Prop
  | .run n => ∀ t ∈ s.threads[n]?, ∀ i ∈ t.code.head?, ∀ root ∈ removing i,
      s.db.mutex = false → s.Built root
  | _ => True

instance (s : DbSystem) (root : ℕ) : Decidable (s.Built root) :=
  inferInstanceAs (Decidable (∀ t ∈ s.threads, t.tag = .resolve root → t.code = []))

instance (s : DbSystem) (a : Action) : Decidable (s.InOrder a) :=
  match a with
  | .run n => inferInstanceAs (Decidable (∀ t ∈ s.threads[n]?, ∀ i ∈ t.code.head?,
      ∀ root ∈ removing i, s.db.mutex = false → s.Built root))
  | .submit _ | .finish _ => .isTrue trivial

end DbSystem

/-! ## The trees -/

namespace AsyncDb

/-- A context is the given one, or is below it. -/
abbrev Below (db : AsyncDb) : ℕ → ℕ → Prop := Relation.ReflTransGen fun p c => c ∈ db.subs p

/-- The contexts form trees. -/
structure Wf (db : AsyncDb) : Prop where
  subs : ∀ p, ∀ c ∈ db.subs p, p < db.nextId ∧ c < db.nextId ∧ db.rootOf c = db.rootOf p
  below : ∀ id < db.nextId, db.Below (db.rootOf id) id
  entries : ∀ id ∈ db.entries, id < db.nextId
  registered : ∀ id ∈ db.registered, id < db.nextId

/-- Contexts are added, and stay where they are. -/
structure Grows (db db' : AsyncDb) : Prop where
  nextId : db.nextId ≤ db'.nextId
  rootOf : ∀ id < db.nextId, db'.rootOf id = db.rootOf id
  subs : ∀ p, ∀ c ∈ db.subs p, c ∈ db'.subs p

variable {db db' : AsyncDb}

theorem Grows.refl (db : AsyncDb) : db.Grows db := ⟨le_rfl, fun _ _ => rfl, fun _ _ hc => hc⟩

theorem Grows.below (h : db.Grows db') {p c : ℕ} (hc : db.Below p c) : db'.Below p c :=
  Relation.ReflTransGen.mono h.subs _ _ hc

/-- Members that the tree structure does not depend on. -/
theorem Wf.congr (h : db.Wf) (hnext : db'.nextId = db.nextId) (hsubs : db'.subs = db.subs)
    (hroot : db'.rootOf = db.rootOf) (hentries : ∀ id ∈ db'.entries, id < db.nextId)
    (hregistered : ∀ id ∈ db'.registered, id < db.nextId) : db'.Wf := by
  refine ⟨?_, ?_, ?_, ?_⟩
  · rw [hnext, hsubs, hroot]
    exact h.subs
  · intro id hid
    rw [Below]
    rw [hsubs, hroot]
    exact h.below id (by rwa [← hnext])
  · rwa [hnext]
  · rwa [hnext]

theorem grows_addSub (parent : ℕ) : db.Grows (db.addSub parent) := by
  refine ⟨by simp [addSub], fun id hid => ?_, fun p c hc => ?_⟩
  · exact Function.update_of_ne (by omega) _ _
  · simp only [addSub]
    by_cases hp : p = parent
    · subst hp
      rw [Function.update_self]
      exact List.mem_append_left _ hc
    · rwa [Function.update_of_ne hp]

theorem Wf.addSub (h : db.Wf) {parent : ℕ} (hparent : parent < db.nextId) :
    (db.addSub parent).Wf := by
  have hgrows : db.Grows (db.addSub parent) := grows_addSub parent
  have hnew : (db.addSub parent).rootOf db.nextId = db.rootOf parent := Function.update_self ..
  have hold : ∀ p c, p < db.nextId → c < db.nextId → db.rootOf c = db.rootOf p →
      p < (db.addSub parent).nextId ∧ c < (db.addSub parent).nextId
        ∧ (db.addSub parent).rootOf c = (db.addSub parent).rootOf p := by
    intro p c hp hc hroot
    rw [hgrows.rootOf c hc, hgrows.rootOf p hp]
    exact ⟨hp.trans_le hgrows.nextId, hc.trans_le hgrows.nextId, hroot⟩
  refine ⟨fun p c hc => ?_, fun id hid => ?_, fun id hid => ?_, fun id hid => ?_⟩
  · simp only [AsyncDb.addSub] at hc
    by_cases hp : p = parent
    · subst hp
      rw [Function.update_self] at hc
      rcases List.mem_append.mp hc with hc | hc
      · obtain ⟨hlt, hltc, hroot⟩ := h.subs p c hc
        exact hold p c hlt hltc hroot
      · obtain rfl := List.mem_singleton.mp hc
        rw [hnew, hgrows.rootOf p hparent]
        exact ⟨hparent.trans_le hgrows.nextId, Nat.lt_succ_self _, rfl⟩
    · rw [Function.update_of_ne hp] at hc
      obtain ⟨hlt, hltc, hroot⟩ := h.subs p c hc
      exact hold p c hlt hltc hroot
  · rcases Nat.lt_succ_iff_lt_or_eq.mp hid with hid | rfl
    · rw [hgrows.rootOf id hid]
      exact hgrows.below (h.below id hid)
    · rw [hnew]
      refine (hgrows.below (h.below parent hparent)).tail ?_
      simp only [AsyncDb.addSub, Function.update_self]
      exact List.mem_append_right _ (List.mem_singleton.mpr rfl)
  · exact (h.entries id hid).trans_le hgrows.nextId
  · exact (h.registered id hid).trans_le hgrows.nextId

theorem grows_addRoot : db.Grows db.addRoot :=
  ⟨by simp [addRoot], fun _ hid => Function.update_of_ne (by omega) _ _, fun _ _ hc => hc⟩

theorem Wf.addRoot (h : db.Wf) : db.addRoot.Wf := by
  have hgrows : db.Grows db.addRoot := grows_addRoot
  refine ⟨fun p c hc => ?_, fun id hid => ?_, fun id hid => ?_, fun id hid => ?_⟩
  · obtain ⟨hp, hlt, hroot⟩ := h.subs p c hc
    rw [hgrows.rootOf c hlt, hgrows.rootOf p hp]
    exact ⟨hp.trans_le hgrows.nextId, hlt.trans_le hgrows.nextId, hroot⟩
  · rcases Nat.lt_succ_iff_lt_or_eq.mp hid with hid | rfl
    · rw [hgrows.rootOf id hid]
      exact hgrows.below (h.below id hid)
    · rw [show db.addRoot.rootOf db.nextId = db.nextId from Function.update_self ..]
  · exact (h.entries id hid).trans_le hgrows.nextId
  · exact (h.registered id hid).trans_le hgrows.nextId

theorem Wf.add (h : db.Wf) {id : ℕ} (hid : id < db.nextId) : (db.add id).Wf := by
  refine h.congr rfl rfl rfl (fun id' hid' => ?_) fun id' hid' => ?_
  · rcases List.mem_cons.mp hid' with rfl | hid'
    · exact hid
    · exact h.entries id' hid'
  · rcases List.mem_cons.mp hid' with rfl | hid'
    · exact hid
    · exact h.registered id' hid'

/-! ## The threads -/

/-- What the thread that resolves the given root does. -/
def Builds (db : AsyncDb) (root : ℕ) : DbInstr → Prop
  | .makeSubCtx id _ | .register id => id < db.nextId ∧ db.rootOf id = root
  | _ => False

/-- What the walk over the tree of the given root does. -/
def Removes (db : AsyncDb) (root : ℕ) : DbInstr → Prop
  | .removeSubtree id | .erase id => id < db.nextId ∧ db.rootOf id = root
  | _ => False

/-- The instruction will erase the given context. -/
def Covers (db : AsyncDb) : DbInstr → ℕ → Prop
  | .removeSubtree id, e => db.Below id e
  | .erase id, e => e = id
  | _, _ => False

theorem Grows.builds (h : db.Grows db') {root : ℕ} {i : DbInstr} (hi : db.Builds root i) :
    db'.Builds root i := by
  cases i with
  | makeSubCtx id shape => exact ⟨hi.1.trans_le h.nextId, (h.rootOf id hi.1).trans hi.2⟩
  | register id => exact ⟨hi.1.trans_le h.nextId, (h.rootOf id hi.1).trans hi.2⟩
  | _ => exact hi.elim

theorem Grows.removes (h : db.Grows db') {root : ℕ} {i : DbInstr} (hi : db.Removes root i) :
    db'.Removes root i := by
  cases i with
  | removeSubtree id => exact ⟨hi.1.trans_le h.nextId, (h.rootOf id hi.1).trans hi.2⟩
  | erase id => exact ⟨hi.1.trans_le h.nextId, (h.rootOf id hi.1).trans hi.2⟩
  | _ => exact hi.elim

theorem Grows.covers (h : db.Grows db') {i : DbInstr} {e : ℕ} (hi : db.Covers i e) :
    db'.Covers i e := by
  cases i with
  | removeSubtree id => exact h.below hi
  | erase id => exact hi
  | _ => exact hi.elim

end AsyncDb

def Role.root : Role → ℕ
  | .resolve root | .finish root => root

namespace DbSystem

/-- A walk that has started: the tree is built, and what is left of it in the database will
be erased. -/
structure Walks (s : DbSystem) (root : ℕ) (walk : List DbInstr) : Prop where
  built : s.Built root
  removes : ∀ i ∈ walk, s.db.Removes root i
  covers : ∀ e ∈ s.db.entries, s.db.rootOf e = root → ∃ i ∈ walk, s.db.Covers i e

/-- Nothing is left of a tree. -/
structure Gone (s : DbSystem) (root : ℕ) : Prop where
  built : s.Built root
  lt : root < s.db.nextId
  entries : ∀ e ∈ s.db.entries, s.db.rootOf e ≠ root

/-- What a thread has left to do. -/
def CodeOk (s : DbSystem) (code : List DbInstr) : Role → Prop
  | .resolve root => ∀ i ∈ code, s.db.Builds root i
  | .finish root => code = [] ∨ code = [.removeTree root]
      ∨ ∃ walk, code = walk ++ [.removed root] ∧ s.Walks root walk

structure ThreadOk (s : DbSystem) (t : Thread Role DbInstr) : Prop where
  handler : t.handler = []
  lt : t.tag.root < s.db.nextId
  root : s.db.rootOf t.tag.root = t.tag.root
  code : s.CodeOk t.code t.tag

structure Inv (s : DbSystem) : Prop where
  wf : s.db.Wf
  threads : ∀ t ∈ s.threads, s.ThreadOk t
  removed : ∀ root ∈ s.db.removed, s.Gone root
  kept : ∀ id ∈ s.db.registered, id ∈ s.db.entries
    ∨ ∃ t ∈ s.threads, t.tag = .finish (s.db.rootOf id)

/-- What a step may do to the trees: a tree that is built stays so, and a new entry of the
database belongs to a tree that is being built. -/
structure Evolves (s s' : DbSystem) : Prop where
  grows : s.db.Grows s'.db
  built : ∀ root < s.db.nextId, s.Built root → s'.Built root
  entries : ∀ e ∈ s'.db.entries, e ∈ s.db.entries
    ∨ (s'.db.rootOf e < s.db.nextId → ¬ s.Built (s'.db.rootOf e))

variable {s s' : DbSystem}

/-- The entries of a tree that is built were there before. -/
theorem Evolves.old_entry (h : Evolves s s') (hwf : s.db.Wf) {root e : ℕ}
    (hroot : root < s.db.nextId) (hbuilt : s.Built root) (he : e ∈ s'.db.entries)
    (heroot : s'.db.rootOf e = root) : e ∈ s.db.entries ∧ s.db.rootOf e = root := by
  rcases h.entries e he with hold | hnew
  · exact ⟨hold, (h.grows.rootOf e (hwf.entries e hold)).symm.trans heroot⟩
  · rw [heroot] at hnew
    exact absurd hbuilt (hnew hroot)

theorem Evolves.gone (h : Evolves s s') (hwf : s.db.Wf) {root : ℕ} (hgone : s.Gone root) :
    s'.Gone root := by
  refine ⟨h.built root hgone.lt hgone.built, hgone.lt.trans_le h.grows.nextId,
    fun e he heroot => ?_⟩
  obtain ⟨hold, hroot⟩ := h.old_entry hwf hgone.lt hgone.built he heroot
  exact hgone.entries e hold hroot

theorem Evolves.threadOk (h : Evolves s s') (hwf : s.db.Wf) {t : Thread Role DbInstr}
    (ht : s.ThreadOk t) : s'.ThreadOk t := by
  refine ⟨ht.handler, ht.lt.trans_le h.grows.nextId, (h.grows.rootOf _ ht.lt).trans ht.root, ?_⟩
  have hcode := ht.code
  have hlt := ht.lt
  cases htag : t.tag with
  | resolve root =>
      rw [htag] at hcode
      exact fun i hi => h.grows.builds (hcode i hi)
  | finish root =>
      rw [htag] at hcode hlt
      refine hcode.imp_right fun hcode => hcode.imp_right fun ⟨walk, hwalk, hw⟩ => ?_
      refine ⟨walk, hwalk, h.built root hlt hw.built, fun i hi => h.grows.removes (hw.removes i hi),
        fun e he heroot => ?_⟩
      obtain ⟨hold, hroot⟩ := h.old_entry hwf hlt hw.built he heroot
      obtain ⟨i, hi, hcovers⟩ := hw.covers e hold hroot
      exact ⟨i, hi, h.grows.covers hcovers⟩

/-- The invariant after a step that evolves the trees. -/
theorem Inv.evolve (h : s.Inv) (he : Evolves s s') (hwf : s'.db.Wf)
    (hthreads : ∀ t ∈ s'.threads, t ∈ s.threads ∨ s'.ThreadOk t)
    (hremoved : ∀ root ∈ s'.db.removed, root ∈ s.db.removed ∨ s'.Gone root)
    (hkept : ∀ id ∈ s'.db.registered, id ∈ s'.db.entries
      ∨ ∃ t ∈ s'.threads, t.tag = .finish (s'.db.rootOf id)) : s'.Inv := by
  refine ⟨hwf, fun t ht => ?_, fun root hroot => ?_, hkept⟩
  · rcases hthreads t ht with hold | hok
    · exact he.threadOk h.wf (h.threads t hold)
    · exact hok
  · rcases hremoved root hroot with hold | hgone
    · exact he.gone h.wf (h.removed root hold)
    · exact hgone

section
variable {n : ℕ} {t t' : Thread Role DbInstr} {db' : AsyncDb}

/-- A thread that makes a step does not belong to a tree that is built. -/
theorem Built.setThread {root : ℕ} (h : s.Built root) (hn : s.threads[n]? = some t)
    (hne : t.code ≠ []) (htag : t'.tag = t.tag) : Built ⟨db', s.threads.set n t'⟩ root := by
  intro u hu hrole
  rcases List.mem_or_eq_of_mem_set hu with hu | rfl
  · exact h u hu hrole
  · exact absurd (h t (List.mem_of_getElem? hn) (htag.symm.trans hrole)) hne

/-- A step of one thread: a new entry belongs to the tree that it builds, and an entry that
is erased to the tree that it removes. -/
theorem Inv.setThread (h : s.Inv) (hn : s.threads[n]? = some t) (hne : t.code ≠ [])
    (htag : t'.tag = t.tag) (hgrows : s.db.Grows db') (hwf : db'.Wf)
    (hentries : ∀ e ∈ db'.entries, e ∈ s.db.entries ∨ t.tag = .resolve (db'.rootOf e))
    (ht' : ThreadOk ⟨db', s.threads.set n t'⟩ t')
    (hremoved : ∀ root ∈ db'.removed, root ∈ s.db.removed
      ∨ Gone ⟨db', s.threads.set n t'⟩ root)
    (hregistered : ∀ id ∈ db'.registered, id ∈ s.db.registered ∨ id ∈ db'.entries)
    (herased : ∀ id ∈ s.db.entries, id ∈ db'.entries ∨ t.tag = .finish (s.db.rootOf id)) :
    Inv ⟨db', s.threads.set n t'⟩ := by
  have hevolves : Evolves s ⟨db', s.threads.set n t'⟩ := by
    refine ⟨hgrows, fun root _ hbuilt => hbuilt.setThread hn hne htag, fun e he => ?_⟩
    refine (hentries e he).imp_right fun hrole _ hbuilt => ?_
    exact hne (hbuilt t (List.mem_of_getElem? hn) hrole)
  refine h.evolve hevolves hwf (fun u hu => ?_) hremoved fun id hid => ?_
  · rcases List.mem_or_eq_of_mem_set hu with hu | rfl
    · exact .inl hu
    · exact .inr ht'
  · rcases hregistered id hid with hold | hin
    · simp only
      rw [hgrows.rootOf id (h.wf.registered id hold)]
      rcases h.kept id hold with hin | hfinisher
      · refine (herased id hin).imp_right fun hrole => ?_
        have hlt : n < s.threads.length := (List.getElem?_eq_some_iff.mp hn).1
        exact ⟨t', List.mem_set hlt t', htag.trans hrole⟩
      · exact .inr (exists_mem_set hfinisher hn fun hrole => htag.trans hrole)
    · exact .inl hin

/-- A thread waits for the mutex. -/
theorem Inv.wait (h : s.Inv) (hn : s.threads[n]? = some t) :
    Inv ⟨s.db, s.threads.set n t⟩ := by
  rw [show s.threads.set n t = s.threads by
    obtain ⟨hlt, rfl⟩ := List.getElem?_eq_some_iff.mp hn
    exact List.set_getElem_self hlt]
  exact h

variable {i : DbInstr} {rest pushed : List DbInstr} {root : ℕ}

/-- A step of the thread that resolves a root. -/
theorem Inv.resolve (h : s.Inv) (hn : s.threads[n]? = some t) (hrole : t.tag = .resolve root)
    (hcode : t.code = i :: rest) (hexec : s.db.exec i = .next db' pushed) :
    Inv ⟨db', s.threads.set n { t with code := pushed ++ rest }⟩ := by
  have hok := h.threads t (List.mem_of_getElem? hn)
  have hbuilds : ∀ j ∈ t.code, s.db.Builds root j := by
    have := hok.code
    rwa [hrole] at this
  have hne : t.code ≠ [] := by simp [hcode]
  have hi : s.db.Builds root i := hbuilds i (by simp [hcode])
  have hrest : ∀ j ∈ rest, s.db.Builds root j := fun j hj => hbuilds j (by simp [hcode, hj])
  -- the thread after the step, given that it goes on to build the tree
  have hthread : s.db.Grows db' → (∀ j ∈ pushed, db'.Builds root j) →
      ThreadOk ⟨db', s.threads.set n { t with code := pushed ++ rest }⟩
        { t with code := pushed ++ rest } := by
    intro hgrows hpushed
    refine ⟨hok.handler, hok.lt.trans_le hgrows.nextId,
      (hgrows.rootOf _ hok.lt).trans hok.root, ?_⟩
    simp only [hrole]
    intro j hj
    rcases List.mem_append.mp hj with hj | hj
    · exact hpushed j hj
    · exact hgrows.builds (hrest j hj)
  cases i with
  | makeSubCtx parent shape =>
      obtain ⟨shapes⟩ := shape
      obtain ⟨rfl, rfl⟩ := Effect.next.inj hexec
      have hgrows : s.db.Grows (s.db.addSub parent) := AsyncDb.grows_addSub parent
      have hnew : s.db.nextId < (s.db.addSub parent).nextId
          ∧ (s.db.addSub parent).rootOf s.db.nextId = root :=
        ⟨Nat.lt_succ_self _, (Function.update_self ..).trans hi.2⟩
      refine h.setThread hn hne rfl hgrows (h.wf.addSub hi.1) (fun e he => .inl he)
        (hthread hgrows fun j hj => ?_) (fun r hr => .inl hr) (fun id hid => .inl hid)
        fun id hid => .inl hid
      rcases List.mem_cons.mp hj with rfl | hj
      · exact hnew
      · obtain ⟨sub, -, rfl⟩ := List.mem_map.mp hj
        exact hnew
  | register id =>
      simp only [AsyncDb.exec] at hexec
      split at hexec
      · obtain ⟨rfl, rfl⟩ := Effect.next.inj hexec
        rw [show ({ t with code := [.register id] ++ rest } : Thread Role DbInstr) = t by
          rw [List.singleton_append, ← hcode]]
        exact h.wait hn
      · obtain ⟨rfl, rfl⟩ := Effect.next.inj hexec
        have hgrows : s.db.Grows (s.db.add id) := ⟨le_rfl, fun _ _ => rfl, fun _ _ hc => hc⟩
        refine h.setThread hn hne rfl hgrows (h.wf.add hi.1) (fun e he => ?_)
          (hthread hgrows (by simp)) (fun r hr => .inl hr) (fun id' hid' => ?_)
          fun id' hid' => .inl (List.mem_cons_of_mem id hid')
        · rcases List.mem_cons.mp he with rfl | he
          · exact .inr (hrole.trans (congrArg Role.resolve hi.2.symm))
          · exact .inl he
        · rcases List.mem_cons.mp hid' with rfl | hid'
          · exact .inr List.mem_cons_self
          · exact .inl hid'
  | _ => exact hi.elim

/-- A step of a walk, given what it leads to. -/
theorem Inv.setWalk (h : s.Inv) (hn : s.threads[n]? = some t) (hrole : t.tag = .finish root)
    (hne : t.code ≠ []) {code : List DbInstr} (hgrows : s.db.Grows db') (hwf : db'.Wf)
    (hentries : ∀ e ∈ db'.entries, e ∈ s.db.entries)
    (hregistered : db'.registered = s.db.registered)
    (herased : ∀ id ∈ s.db.entries, id ∈ db'.entries ∨ s.db.rootOf id = root)
    (hremoved : ∀ r ∈ db'.removed, r ∈ s.db.removed
      ∨ Gone ⟨db', s.threads.set n { t with code, handler := [] }⟩ r)
    (hcode : CodeOk ⟨db', s.threads.set n { t with code, handler := [] }⟩ code (.finish root)) :
    Inv ⟨db', s.threads.set n { t with code, handler := [] }⟩ := by
  have hok := h.threads t (List.mem_of_getElem? hn)
  refine h.setThread hn hne rfl hgrows hwf (fun e he => .inl (hentries e he))
    ⟨rfl, hok.lt.trans_le hgrows.nextId, (hgrows.rootOf _ hok.lt).trans hok.root, ?_⟩ hremoved
    (fun id hid => .inl ?_) fun id hid => ?_
  · have htag : ∀ role, role = .finish root →
        CodeOk ⟨db', s.threads.set n { t with code, handler := [] }⟩ code role := by
      rintro _ rfl
      exact hcode
    exact htag _ hrole
  · rwa [← hregistered]
  · refine (herased id hid).imp_right fun hroot => ?_
    rw [hrole, hroot]

/-- The walk is over, and nothing is left. -/
theorem Inv.walk_end (h : s.Inv) (hn : s.threads[n]? = some t) (hrole : t.tag = .finish root)
    (hw : s.Walks root []) (hcode : t.code = [.removed root]) :
    Inv ⟨{ s.db with mutex := false, removed := root :: s.db.removed },
      s.threads.set n { t with code := [], handler := [] }⟩ := by
  have hlt : root < s.db.nextId := by
    have := (h.threads t (List.mem_of_getElem? hn)).lt
    rwa [hrole] at this
  have hne : t.code ≠ [] := by simp [hcode]
  refine h.setWalk hn hrole hne ⟨le_rfl, fun _ _ => rfl, fun _ _ hc => hc⟩
    (h.wf.congr rfl rfl rfl h.wf.entries h.wf.registered) (fun e he => he) rfl
    (fun id hid => .inl hid) (fun r hr => ?_) (.inl rfl)
  rcases List.mem_cons.mp hr with rfl | hr
  · refine .inr ⟨hw.built.setThread hn hne rfl, hlt, fun e he heroot => ?_⟩
    obtain ⟨j, hj, -⟩ := hw.covers e he heroot
    simp at hj
  · exact .inl hr

/-- The walk goes down to the subs of a node. -/
theorem Inv.walk_down (h : s.Inv) (hn : s.threads[n]? = some t) (hrole : t.tag = .finish root)
    {id : ℕ} {walk : List DbInstr} (hw : s.Walks root (.removeSubtree id :: walk))
    (hcode : t.code = .removeSubtree id :: (walk ++ [.removed root])) :
    Inv ⟨s.db, s.threads.set n { t with
      code := ((s.db.subs id).map .removeSubtree ++ [.erase id]) ++ (walk ++ [.removed root])
      handler := [] }⟩ := by
  have hne : t.code ≠ [] := by simp [hcode]
  have hi := hw.removes _ List.mem_cons_self
  refine h.setWalk hn hrole hne (.refl _) h.wf (fun e he => he) rfl
    (fun id hid => .inl hid) (fun r hr => .inl hr) (.inr (.inr ⟨_,
      (List.append_assoc ..).symm, hw.built.setThread hn hne rfl, fun j hj => ?_,
      fun e he heroot => ?_⟩))
  · rcases List.mem_append.mp hj with hj | hj
    · rcases List.mem_append.mp hj with hj | hj
      · obtain ⟨sub, hsub, rfl⟩ := List.mem_map.mp hj
        obtain ⟨-, hltsub, hroot⟩ := h.wf.subs id sub hsub
        exact ⟨hltsub, hroot.trans hi.2⟩
      · rw [List.mem_singleton.mp hj]
        exact hi
    · exact hw.removes j (List.mem_cons_of_mem _ hj)
  · obtain ⟨j, hj, hcovers⟩ := hw.covers e he heroot
    rcases List.mem_cons.mp hj with rfl | hj
    · -- below the node is the node itself or what is below one of its subs
      rcases Relation.ReflTransGen.cases_head hcovers with rfl | ⟨sub, hsub, hbelow⟩
      · exact ⟨.erase id, by simp, rfl⟩
      · exact ⟨.removeSubtree sub, by simp [hsub], hbelow⟩
    · exact ⟨j, List.mem_append_right _ hj, hcovers⟩

/-- The walk erases a node. -/
theorem Inv.walk_erase (h : s.Inv) (hn : s.threads[n]? = some t) (hrole : t.tag = .finish root)
    {id : ℕ} {walk : List DbInstr} (hw : s.Walks root (.erase id :: walk))
    (hcode : t.code = .erase id :: (walk ++ [.removed root])) :
    Inv ⟨{ s.db with entries := s.db.entries.filter (· ≠ id) }, s.threads.set n { t with
      code := walk ++ [.removed root], handler := [] }⟩ := by
  have hne : t.code ≠ [] := by simp [hcode]
  have hfilter : ∀ e ∈ s.db.entries.filter (· ≠ id), e ∈ s.db.entries ∧ e ≠ id := by
    intro e he
    simpa using List.mem_filter.mp he
  refine h.setWalk hn hrole hne ⟨le_rfl, fun _ _ => rfl, fun _ _ hc => hc⟩
    (h.wf.congr rfl rfl rfl (fun e he => h.wf.entries e (hfilter e he).1) h.wf.registered)
    (fun e he => (hfilter e he).1) rfl (fun e he => ?_) (fun r hr => .inl hr)
    (.inr (.inr ⟨walk, rfl, hw.built.setThread hn hne rfl,
      fun j hj => hw.removes j (List.mem_cons_of_mem _ hj), fun e he heroot => ?_⟩))
  · by_cases heid : e = id
    · exact .inr (heid ▸ (hw.removes _ List.mem_cons_self).2)
    · exact .inl (List.mem_filter.mpr ⟨he, by simpa using heid⟩)
  · obtain ⟨hin, hneid⟩ := hfilter e he
    obtain ⟨j, hj, hcovers⟩ := hw.covers e hin heroot
    rcases List.mem_cons.mp hj with rfl | hj
    · exact absurd hcovers hneid
    · exact ⟨j, hj, hcovers⟩

/-- A step of a walk that has started. -/
theorem Inv.walk (h : s.Inv) (hn : s.threads[n]? = some t) (hrole : t.tag = .finish root)
    {walk : List DbInstr} (hwalk : t.code = walk ++ [.removed root]) (hw : s.Walks root walk)
    (hcode : t.code = i :: rest) (hexec : s.db.exec i = .next db' pushed) :
    Inv ⟨db', s.threads.set n { t with code := pushed ++ rest, handler := [] }⟩ := by
  cases walk with
  | nil =>
      obtain ⟨rfl, rfl⟩ := List.cons.inj (hcode.symm.trans hwalk)
      obtain ⟨rfl, rfl⟩ := Effect.next.inj hexec
      exact h.walk_end hn hrole hw hcode
  | cons j walk =>
      rw [List.cons_append] at hwalk
      obtain ⟨rfl, rfl⟩ := List.cons.inj (hcode.symm.trans hwalk)
      cases i with
      | removeSubtree id =>
          obtain ⟨rfl, rfl⟩ := Effect.next.inj hexec
          exact h.walk_down hn hrole hw hcode
      | erase id =>
          obtain ⟨rfl, rfl⟩ := Effect.next.inj hexec
          exact h.walk_erase hn hrole hw hcode
      | _ => exact (hw.removes _ List.mem_cons_self).elim

/-- Only `remove_tree` throws, when it does not find its root. -/
theorem exec_throws (h : s.db.exec i = .throws db') :
    (∃ root, i = .removeTree root) ∧ db' = s.db := by
  cases i with
  | removeTree root =>
      simp only [AsyncDb.exec] at h
      split at h
      · cases h
      · split at h
        · cases h
        · exact ⟨⟨root, rfl⟩, (Effect.throws.inj h).symm⟩
  | makeSubCtx parent shape =>
      obtain ⟨shapes⟩ := shape
      cases h
  | register id =>
      simp only [AsyncDb.exec] at h
      split at h <;> cases h
  | _ => cases h

/-- `remove_tree` does not find its root. -/
theorem Inv.notFound (h : s.Inv) (hn : s.threads[n]? = some t) (hrole : t.tag = .finish root)
    (hne : t.code ≠ []) : Inv ⟨s.db, s.threads.set n { t with code := [], handler := [] }⟩ :=
  h.setWalk hn hrole hne (.refl _) h.wf (fun _ he => he) rfl (fun _ hid => .inl hid)
    (fun _ hr => .inl hr) (.inl rfl)

/-- `remove_tree` finds its root, and starts the walk over a tree that is built. -/
theorem Inv.startWalk (h : s.Inv) (hn : s.threads[n]? = some t) (hrole : t.tag = .finish root)
    (hcode : t.code = [.removeTree root]) (hbuilt : s.Built root) :
    Inv ⟨{ s.db with mutex := true }, s.threads.set n
      { t with code := [.removeSubtree root, .removed root], handler := [] }⟩ := by
  have hok := h.threads t (List.mem_of_getElem? hn)
  have hlt := hok.lt
  have hroot := hok.root
  rw [hrole] at hlt hroot
  have hne : t.code ≠ [] := by simp [hcode]
  refine h.setWalk hn hrole hne ⟨le_rfl, fun _ _ => rfl, fun _ _ hc => hc⟩
    (h.wf.congr rfl rfl rfl h.wf.entries h.wf.registered) (fun e he => he) rfl
    (fun id hid => .inl hid) (fun r hr => .inl hr)
    (.inr (.inr ⟨[.removeSubtree root], rfl, hbuilt.setThread hn hne rfl, fun j hj => ?_,
      fun e he heroot => ⟨.removeSubtree root, by simp, ?_⟩⟩))
  · rw [List.mem_singleton.mp hj]
    exact ⟨hlt, hroot⟩
  · have hbelow := h.wf.below e (h.wf.entries e he)
    rwa [show s.db.rootOf e = root from heroot] at hbelow

/-- A new thread that does not build one of the trees that are there. -/
theorem Inv.addThread (h : s.Inv) (hgrows : s.db.Grows db') (hwf : db'.Wf)
    (ht : ThreadOk ⟨db', s.threads ++ [t]⟩ t)
    (htag : ∀ r < s.db.nextId, t.tag = .resolve r → t.code = [])
    (hentries : ∀ e ∈ db'.entries, e ∈ s.db.entries ∨ s.db.nextId ≤ db'.rootOf e)
    (hremoved : db'.removed = s.db.removed)
    (hregistered : ∀ id ∈ db'.registered, id ∈ s.db.registered ∨ id ∈ db'.entries)
    (hkeeps : ∀ id ∈ s.db.entries, id ∈ db'.entries) :
    Inv ⟨db', s.threads ++ [t]⟩ := by
  have hevolves : Evolves s ⟨db', s.threads ++ [t]⟩ := by
    refine ⟨hgrows, fun r hr hbuilt u hu hrole => ?_, fun e he => ?_⟩
    · rcases List.mem_append.mp hu with hu | hu
      · exact hbuilt u hu hrole
      · obtain rfl := List.mem_singleton.mp hu
        exact htag r hr hrole
    · exact (hentries e he).imp_right fun hge hlt => absurd hlt (not_lt.mpr hge)
  refine h.evolve hevolves hwf (fun u hu => ?_) (fun r hr => .inl (hremoved ▸ hr)) fun id hid => ?_
  · rcases List.mem_append.mp hu with hu | hu
    · exact .inl hu
    · rw [List.mem_singleton.mp hu]
      exact .inr ht
  · rcases hregistered id hid with hold | hin
    · simp only
      rw [hgrows.rootOf id (h.wf.registered id hold)]
      refine (h.kept id hold).imp (hkeeps id) fun ⟨u, hu, hrole⟩ => ?_
      exact ⟨u, List.mem_append_left _ hu, hrole⟩
    · exact .inl hin

/-- A client's request to finish a tree. -/
theorem Inv.finish (h : s.Inv) (hroot : ∃ t ∈ s.threads, t.tag = .resolve root) :
    Inv { s with threads :=
      s.threads ++ [{ tag := .finish root, code := [.removeTree root] }] } := by
  obtain ⟨u, hu, hrole⟩ := hroot
  have hok := h.threads u hu
  have hlt := hok.lt
  have hself := hok.root
  rw [hrole] at hlt hself
  exact h.addThread (.refl _) h.wf ⟨rfl, hlt, hself, .inr (.inl rfl)⟩ (by simp)
    (fun e he => .inl he) rfl (fun id hid => .inl hid) fun id hid => hid

theorem Inv.submit (h : s.Inv) (shapes : List ContextTree) :
    Inv { db := s.db.addRoot.add s.db.nextId
          threads := s.threads ++ [{ tag := .resolve s.db.nextId
                                     code := shapes.map (.makeSubCtx s.db.nextId) }] } := by
  have hgrows : s.db.Grows (s.db.addRoot.add s.db.nextId) :=
    ⟨AsyncDb.grows_addRoot.nextId, AsyncDb.grows_addRoot.rootOf, AsyncDb.grows_addRoot.subs⟩
  have hlt : s.db.nextId < s.db.addRoot.nextId := Nat.lt_succ_self _
  have hself : (s.db.addRoot.add s.db.nextId).rootOf s.db.nextId = s.db.nextId :=
    Function.update_self ..
  refine h.addThread hgrows (h.wf.addRoot.add hlt) ⟨rfl, hlt, hself, fun j hj => ?_⟩
    (fun r hr hrole => ?_) (fun e he => ?_) rfl (fun id hid => ?_)
    fun id hid => List.mem_cons_of_mem _ hid
  · obtain ⟨shape, -, rfl⟩ := List.mem_map.mp hj
    exact ⟨hlt, hself⟩
  · have : s.db.nextId = r := by simpa using hrole
    omega
  · rcases List.mem_cons.mp he with rfl | he
    · exact .inr hself.ge
    · exact .inl he
  · rcases List.mem_cons.mp hid with rfl | hid
    · exact .inr List.mem_cons_self
    · exact .inl hid

/-- A step of a thread that works for a client's `finish_async`. -/
theorem Inv.step_finish (h : s.Inv) (hok : s.InOrder (.run n)) (hn : s.threads[n]? = some t)
    (hrole : t.tag = .finish root)
    (hthread : stepThread AsyncDb.exec s.db t = some (db', t')) :
    Inv ⟨db', s.threads.set n t'⟩ := by
  obtain ⟨i, rest, hcode, hcases⟩ := stepThread_cases hthread
  have hthreadOk := h.threads t (List.mem_of_getElem? hn)
  have hsame : ∀ code, ({ t with code := code } : Thread Role DbInstr)
      = { t with code := code, handler := [] } := by
    intro code
    rw [← hthreadOk.handler]
  have hne : t.code ≠ [] := by simp [hcode]
  have hcodeOk := hthreadOk.code
  rw [hrole] at hcodeOk
  rcases hcodeOk with hnil | hremove | ⟨walk, hwalk, hw⟩
  · exact absurd hnil hne
  · -- the walk is yet to start
    obtain ⟨rfl, rfl⟩ := List.cons.inj (hcode.symm.trans hremove)
    rcases hcases with ⟨pushed, hexec, rfl⟩ | ⟨hexec, rfl⟩
    · simp only [AsyncDb.exec] at hexec
      split at hexec
      · obtain ⟨rfl, rfl⟩ := Effect.next.inj hexec
        rw [List.append_nil, ← hremove]
        exact h.wait hn
      · rename_i hmutex
        split at hexec
        · obtain ⟨rfl, rfl⟩ := Effect.next.inj hexec
          rw [hsame]
          exact h.startWalk hn hrole hremove (hok t hn _ (by rw [hcode]; rfl) root rfl
            (Bool.eq_false_of_not_eq_true hmutex))
        · cases hexec
    · obtain ⟨-, rfl⟩ := exec_throws hexec
      rw [hthreadOk.handler]
      exact h.notFound hn hrole hne
  · rcases hcases with ⟨pushed, hexec, rfl⟩ | ⟨hexec, rfl⟩
    · rw [hsame]
      exact h.walk hn hrole hwalk hw hcode hexec
    · obtain ⟨⟨r, rfl⟩, -⟩ := exec_throws hexec
      cases walk with
      | nil => simp [hcode] at hwalk
      | cons j walk =>
          obtain ⟨rfl, -⟩ := List.cons.inj (hcode.symm.trans hwalk)
          exact (hw.removes _ List.mem_cons_self).elim

end

theorem Inv.step {a : Action} (h : s.Inv) (hok : s.InOrder a) (hstep : s.step a = some s') :
    s'.Inv := by
  cases a with
  | submit shape =>
      obtain ⟨shapes⟩ := shape
      simp only [DbSystem.step] at hstep
      split at hstep
      · cases hstep
      · obtain rfl := Option.some.inj hstep
        exact h.submit shapes
  | finish root =>
      simp only [DbSystem.step] at hstep
      split at hstep
      · obtain rfl := Option.some.inj hstep
        exact h.finish ‹_›
      · cases hstep
  | run n =>
      obtain ⟨⟨db', ts'⟩, hpool, rfl⟩ := Option.map_eq_some_iff.mp hstep
      obtain ⟨t, t', hn, hthread, rfl⟩ := stepPool_cases hpool
      cases hrole : t.tag with
      | resolve root =>
          obtain ⟨i, rest, hcode, hcases⟩ := stepThread_cases hthread
          rcases hcases with ⟨pushed, hexec, rfl⟩ | ⟨hexec, rfl⟩
          · exact h.resolve hn hrole hcode hexec
          · have hbuilds := (h.threads t (List.mem_of_getElem? hn)).code
            rw [hrole, hcode] at hbuilds
            obtain ⟨⟨r, rfl⟩, -⟩ := exec_throws hexec
            exact (hbuilds (.removeTree r) List.mem_cons_self).elim
      | finish root => exact h.step_finish hok hn hrole hthread

/-! ## Every run -/

/-- In every run in which trees are removed when they are completely built, nothing is left
of a tree that was removed, and contexts of other trees are not removed. -/
theorem gone_of_inOrder (hreach : Transition.Reachable step InOrder start s) :
    (∀ root ∈ s.db.removed, ∀ id ∈ s.db.entries, s.db.rootOf id ≠ root)
      ∧ ∀ id ∈ s.db.registered, id ∈ s.db.entries
        ∨ ∃ t ∈ s.threads, t.tag = .finish (s.db.rootOf id) := by
  have h : s.Inv := by
    refine hreach.invariant (fun s hs => ?_) fun s s' a hI hok hstep => hI.step hok hstep
    obtain rfl : s = {} := hs
    exact ⟨⟨by simp, fun id _ => .refl, by simp, by simp⟩, by simp, by simp, by simp⟩
  exact ⟨fun root hroot => (h.removed root hroot).entries, h.kept⟩

/-- A request on a value, and the same request again. -/
def twoTrees : List Action := [.submit (.node [.node []]), .submit (.node [.node []])]

/-- The first tree is removed when it is built; the second one is still being built. -/
def inTurn : List Action :=
  twoTrees ++ [.run 0, .run 0, .run 1, .finish 1] ++ List.replicate 6 (.run 2)

theorem gone_inTurn : ∃ s, Transition.run step {} inTurn = some s
    ∧ s.db.removed = [1] ∧ s.db.entries = [2] ∧ s.db.registered = [3, 2, 1]
    ∧ (∀ root ∈ s.db.removed, ∀ id ∈ s.db.entries, s.db.rootOf id ≠ root)
    ∧ ∀ id ∈ s.db.registered, id ∈ s.db.entries
      ∨ ∃ t ∈ s.threads, t.tag = .finish (s.db.rootOf id) := by
  obtain ⟨s, hrun⟩ : ∃ s, Transition.run step {} inTurn = some s :=
    Option.isSome_iff_exists.mp (by decide)
  have hend : (Transition.run step {} inTurn).map (fun s => (s.db.removed, s.db.entries,
      s.db.registered)) = some ([1], [2], [3, 2, 1]) := by
    decide
  have hmeet : Transition.StepsMeet step InOrder {} inTurn := by decide
  rw [hrun] at hend
  obtain ⟨hremoved, hentries, hregistered⟩ : s.db.removed = [1] ∧ s.db.entries = [2]
      ∧ s.db.registered = [3, 2, 1] := by
    simpa using hend
  have hstart : {} ∈ start := rfl
  exact ⟨s, hrun, hremoved, hentries, hregistered,
    gone_of_inOrder (.run_of_stepsMeet (.start hstart) hmeet hrun)⟩

/-- The first tree is removed before its second context is made. -/
def tooEarly : List Action :=
  twoTrees ++ [.finish 1] ++ List.replicate 4 (.run 2) ++ [.run 0, .run 0]

/-- The second context of the tree stays in the database. -/
theorem not_gone_tooEarly :
    ¬ ∀ s, Transition.Reachable step (fun _ _ => True) start s → ∀ root ∈ s.db.removed,
      s.Built root → ∀ id ∈ s.db.entries, s.db.rootOf id ≠ root := by
  intro h
  obtain ⟨s, hrun⟩ : ∃ s, Transition.run step {} tooEarly = some s :=
    Option.isSome_iff_exists.mp (by decide)
  have hend : (Transition.run step {} tooEarly).map (fun s => decide (1 ∈ s.db.removed ∧ s.Built 1
      ∧ 3 ∈ s.db.entries ∧ s.db.rootOf 3 = 1)) = some true := by
    decide
  rw [hrun] at hend
  obtain ⟨hremoved, hbuilt, hentry, hroot⟩ := of_decide_eq_true (Option.some.inj hend)
  have hstart : {} ∈ start := rfl
  exact h s (.run (.start hstart) hrun) 1 hremoved hbuilt 3 hentry hroot

end DbSystem
end Cradle.Remote
