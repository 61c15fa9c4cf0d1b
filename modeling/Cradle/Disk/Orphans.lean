import Cradle.Disk.Writers

/-!
# No orphan files

A digest-named file is accounted for through the 'F' row with its digest, and removed
with it.  A writer's row is in state 'X' until it finishes.  When such a row is removed
the file does not exist yet or is left alone, and the later `finish_insert` finds no
row: the file stays behind.  As long as no row of an unfinished writer is removed, every
file has an 'F' row or an unfinished writer.
-/

namespace Cradle.Disk.WriterSystem

variable {env : LLDiskCache.Env} {content : Digest → Content} {s s' : WriterSystem} {a : Action}

/-- Every digest-named file belongs to a row in state 'F' with that digest. -/
def NoOrphans (s : WriterSystem) : Prop :=
  ∀ g, s.cache.files g ≠ none → ∃ e ∈ s.cache.db.cas, e.digest = g ∧ e.storage = .inFile

/-- The step does not remove the row of a writer that is unfinished after it. -/
def KeepsPendingRows (env : LLDiskCache.Env) (content : Digest → Content) (s : WriterSystem)
    (a : Action) : Prop :=
  ∀ s', step env content s a = some s' → ∀ w ∈ s'.pending,
    s.cache.db.cas.Has w.casId → s'.cache.db.cas.Has w.casId

/-- Unfinished writers have a row in state 'X' each, and every file has an 'F' row or an
unfinished writer. -/
structure Accounted (s : WriterSystem) : Prop where
  rows : ∀ w ∈ s.pending, ∃ e ∈ s.cache.db.cas,
    e.casId = w.casId ∧ e.digest = w.digest ∧ e.storage = .invalid
  ids : ∀ w ∈ s.pending, ∀ v ∈ s.pending, w.casId = v.casId → w.token = v.token
  tokens : ∀ w ∈ s.pending, ∀ v ∈ s.pending, w.token = v.token → w = v
  old : ∀ w ∈ s.pending, w.token < s.nextToken
  files : ∀ g, s.cache.files g ≠ none →
    (∃ e ∈ s.cache.db.cas, e.digest = g ∧ e.storage = .inFile) ∨ ∃ w ∈ s.pending, w.digest = g

theorem Accounted.noOrphans (h : s.Accounted) (hp : s.pending = []) : s.NoOrphans := by
  intro g hg
  rcases h.files g hg with hrow | ⟨w, hw, -⟩
  · exact hrow
  · rw [hp] at hw
    exact absurd hw List.not_mem_nil

/-- A row that shrinking keeps under its id is unchanged. -/
theorem Shrinks.mem_of_has {d d' : Directory} (h : Shrinks d d') {e : CasRow}
    (he : e ∈ d.db.cas) (hhas : d'.db.cas.Has e.casId) : e ∈ d'.db.cas := by
  obtain ⟨e', he', hid⟩ := hhas
  rwa [← Table.eq_of_key_eq (h.rows e' he') he hid]

/-- A file left by shrinking, with its 'F' row. -/
theorem Shrinks.covered {d d' : Directory} (h : Shrinks d d') {g : Digest}
    (hg : d'.files g ≠ none) {e : CasRow} (he : e ∈ d.db.cas) (hdigest : e.digest = g)
    (hF : e.storage = .inFile) : ∃ e ∈ d'.db.cas, e.digest = g ∧ e.storage = .inFile :=
  ⟨e, (h.files g hg).2 e he hdigest hF, hdigest, hF⟩

theorem mem_addBoth_of_mem {c : LLDiskCache} {e x : CasRow} {ac : AcRow}
    (hid : e.casId = c.db.newCasId) (hx : x ∈ c.db.cas) : x ∈ (c.addBoth e ac).store.db.cas :=
  (Table.mem_insert (by rw [hid]; exact Db.not_has_newCasId _)).mpr (.inl hx)

theorem mem_addBoth_self {c : LLDiskCache} {e : CasRow} {ac : AcRow}
    (hid : e.casId = c.db.newCasId) : e ∈ (c.addBoth e ac).store.db.cas :=
  (Table.mem_insert (by rw [hid]; exact Db.not_has_newCasId _)).mpr (.inr rfl)

/-- The row of an unfinished writer survives when it is in `d` and `s'` shrinks `d`. -/
theorem rows_of_shrinks {d : Directory} (h : s.Accounted) {w : Writer} (hw : w ∈ s.pending)
    (hd : ∀ e ∈ s.cache.db.cas, e.casId = w.casId → e ∈ d.db.cas)
    (hstore : Shrinks d s'.cache.store)
    (hkeep : s.cache.db.cas.Has w.casId → s'.cache.db.cas.Has w.casId) :
    ∃ e ∈ s'.cache.db.cas, e.casId = w.casId ∧ e.digest = w.digest ∧ e.storage = .invalid := by
  obtain ⟨e, he, hid, hdigest, hX⟩ := h.rows w hw
  have hhas : s'.cache.db.cas.Has e.casId := by
    rw [hid]
    exact hkeep ⟨e, he, hid⟩
  exact ⟨e, hstore.mem_of_has (hd e he hid) hhas, hid, hdigest, hX⟩

/-- Steps that leave the writers alone: `d` has the rows of `s` and its files. -/
theorem accounted_of_shrinks {d : Directory} (h : s.Accounted)
    (hd : ∀ e ∈ s.cache.db.cas, e ∈ d.db.cas) (hfiles : d.files = s.cache.files)
    (hstore : Shrinks d s'.cache.store) (hp : s'.pending = s.pending)
    (ht : s'.nextToken = s.nextToken)
    (hkeep : ∀ w ∈ s'.pending, s.cache.db.cas.Has w.casId → s'.cache.db.cas.Has w.casId) :
    s'.Accounted where
  rows w hw := rows_of_shrinks h (hp ▸ hw) (fun e he _ => hd e he) hstore (hkeep w hw)
  ids := hp ▸ h.ids
  tokens := hp ▸ h.tokens
  old := by
    rw [hp, ht]
    exact h.old
  files g hg := by
    have hold := (hstore.files g hg).1
    rw [hfiles] at hold
    rw [hp]
    rcases h.files g hold with ⟨e, he, hdigest, hF⟩ | hw
    · exact .inl (hstore.covered hg (hd e he) hdigest hF)
    · exact .inr hw

/-- A new writer gets a row under an id that no other unfinished writer holds. -/
theorem accounted_initiate (h : s.Accounted) {e : CasRow} {ac : AcRow}
    (hid : e.casId = s.cache.db.newCasId) (hstorage : e.storage = .invalid)
    (hstore : s'.cache.store = (s.cache.addBoth e ac).store)
    (hp : s'.pending = { token := s.nextToken, casId := e.casId, digest := e.digest } :: s.pending)
    (ht : s'.nextToken = s.nextToken + 1) : s'.Accounted := by
  have hdb : s'.cache.db.cas = (s.cache.addBoth e ac).store.db.cas :=
    congrArg (fun d => d.db.cas) hstore
  have hfiles : s'.cache.files = s.cache.files := congrArg Directory.files hstore
  -- the rows of the other writers are there, so the new id is not one of theirs
  have hother : ∀ w ∈ s.pending, w.casId ≠ e.casId := by
    intro w hw heq
    obtain ⟨x, hx, hxid, -⟩ := h.rows w hw
    exact (Db.casId_lt_newCasId hx).ne (by rw [hxid, heq, hid])
  constructor
  · intro w hw
    rw [hdb]
    rw [hp] at hw
    rcases List.mem_cons.mp hw with rfl | hw
    · exact ⟨e, mem_addBoth_self hid, rfl, rfl, hstorage⟩
    · obtain ⟨x, hx, hrest⟩ := h.rows w hw
      exact ⟨x, mem_addBoth_of_mem hid hx, hrest⟩
  · intro w hw v hv hwv
    rw [hp] at hw hv
    rcases List.mem_cons.mp hw with rfl | hw
    · rcases List.mem_cons.mp hv with rfl | hv
      · rfl
      · exact absurd hwv.symm (hother v hv)
    · rcases List.mem_cons.mp hv with rfl | hv
      · exact absurd hwv (hother w hw)
      · exact h.ids w hw v hv hwv
  · intro w hw v hv hwv
    rw [hp] at hw hv
    rcases List.mem_cons.mp hw with rfl | hw
    · rcases List.mem_cons.mp hv with rfl | hv
      · rfl
      · exact absurd hwv.symm (h.old v hv).ne
    · rcases List.mem_cons.mp hv with rfl | hv
      · exact absurd hwv (h.old w hw).ne
      · exact h.tokens w hw v hv hwv
  · intro w hw
    rw [hp] at hw
    rw [ht]
    rcases List.mem_cons.mp hw with rfl | hw
    · exact Nat.lt_succ_self _
    · exact (h.old w hw).trans (Nat.lt_succ_self _)
  · intro g hg
    rw [hfiles] at hg
    rw [hdb, hp]
    rcases h.files g hg with ⟨x, hx, hrest⟩ | ⟨w, hw, hwg⟩
    · exact .inl ⟨x, mem_addBoth_of_mem hid hx, hrest⟩
    · exact .inr ⟨w, List.mem_cons_of_mem _ hw, hwg⟩

/-- A file is written for an unfinished writer. -/
theorem accounted_writeFile (h : s.Accounted) {v : Writer} (hv : v ∈ s.pending)
    (hdb : s'.cache.db = s.cache.db)
    (hfiles : s'.cache.files
      = Function.update s.cache.files v.digest (some (content v.digest).stored))
    (hp : s'.pending = s.pending.map fun w =>
      if w.token = v.token then { w with written := true } else w)
    (ht : s'.nextToken = s.nextToken) : s'.Accounted := by
  let mark (w : Writer) : Writer := if w.token = v.token then { w with written := true } else w
  have hmark : ∀ w, (mark w).token = w.token ∧ (mark w).casId = w.casId
      ∧ (mark w).digest = w.digest := by
    intro w
    simp only [mark]
    split <;> exact ⟨rfl, rfl, rfl⟩
  have hmem : ∀ w ∈ s'.pending, ∃ w₀ ∈ s.pending, mark w₀ = w := by
    intro w hw
    rw [hp] at hw
    exact List.mem_map.mp hw
  constructor
  · intro w hw
    obtain ⟨w₀, hw₀, rfl⟩ := hmem w hw
    rw [hdb, (hmark w₀).2.1, (hmark w₀).2.2]
    exact h.rows w₀ hw₀
  · intro w hw v hv hwv
    obtain ⟨w₀, hw₀, rfl⟩ := hmem w hw
    obtain ⟨v₀, hv₀, rfl⟩ := hmem v hv
    rw [(hmark w₀).2.1, (hmark v₀).2.1] at hwv
    rw [(hmark w₀).1, (hmark v₀).1]
    exact h.ids w₀ hw₀ v₀ hv₀ hwv
  · intro w hw v hv hwv
    obtain ⟨w₀, hw₀, rfl⟩ := hmem w hw
    obtain ⟨v₀, hv₀, rfl⟩ := hmem v hv
    rw [(hmark w₀).1, (hmark v₀).1] at hwv
    rw [h.tokens w₀ hw₀ v₀ hv₀ hwv]
  · intro w hw
    obtain ⟨w₀, hw₀, rfl⟩ := hmem w hw
    rw [(hmark w₀).1, ht]
    exact h.old w₀ hw₀
  · intro g hg
    have hstill : ∀ w₀ ∈ s.pending, w₀.digest = g → ∃ w ∈ s'.pending, w.digest = g := by
      intro w₀ hw₀ hwg
      refine ⟨mark w₀, ?_, (hmark w₀).2.2.trans hwg⟩
      rw [hp]
      exact List.mem_map_of_mem hw₀
    rw [hdb]
    rw [hfiles] at hg
    by_cases hgv : g = v.digest
    · exact .inr (hstill v hv hgv.symm)
    · rw [Function.update_of_ne hgv] at hg
      rcases h.files g hg with hrow | ⟨w₀, hw₀, hwg⟩
      · exact .inl hrow
      · exact .inr (hstill w₀ hw₀ hwg)

/-- A writer that finishes turns its row into an 'F' row, which then covers its file. -/
theorem accounted_finish (h : s.Accounted) {v : Writer} (hv : v ∈ s.pending) {n m : ℕ}
    (hstore : Shrinks (s.cache.finishCasInsert v.casId n m).store s'.cache.store)
    (hp : s'.pending = s.pending.filter (·.token ≠ v.token)) (ht : s'.nextToken = s.nextToken)
    (hkeep : ∀ w ∈ s'.pending, s.cache.db.cas.Has w.casId → s'.cache.db.cas.Has w.casId) :
    s'.Accounted := by
  have hmem : ∀ w ∈ s'.pending, w ∈ s.pending ∧ w.token ≠ v.token := by
    intro w hw
    rw [hp] at hw
    simpa using List.mem_filter.mp hw
  have hrow : ∀ e ∈ s.cache.db.cas, (if e.casId = v.casId then LLDiskCache.finishRow n m e else e)
      ∈ (s.cache.finishCasInsert v.casId n m).store.db.cas := fun e he =>
    (Table.mem_modify (LLDiskCache.finishRow_casId n m)).mpr ⟨e, he, rfl⟩
  constructor
  · intro w hw
    obtain ⟨hw₀, hne⟩ := hmem w hw
    refine rows_of_shrinks h hw₀ (fun e he hid => ?_) hstore (hkeep w hw)
    have hidv : e.casId ≠ v.casId := fun heq => hne (h.ids w hw₀ v hv (hid.symm.trans heq))
    simpa [hidv] using hrow e he
  · exact fun w hw u hu => h.ids w (hmem w hw).1 u (hmem u hu).1
  · exact fun w hw u hu => h.tokens w (hmem w hw).1 u (hmem u hu).1
  · intro w hw
    rw [ht]
    exact h.old w (hmem w hw).1
  · intro g hg
    have hcover : ∀ e ∈ s.cache.db.cas, e.digest = g →
        (e.casId = v.casId ∨ e.storage = .inFile) →
        ∃ e ∈ s'.cache.db.cas, e.digest = g ∧ e.storage = .inFile := by
      intro e he hdigest hor
      refine hstore.covered hg (hrow e he) ?_ ?_
      · split <;> exact hdigest
      · split
        · rfl
        · next hne => exact hor.resolve_left hne
    rcases h.files g (hstore.files g hg).1 with ⟨e, he, hdigest, hF⟩ | ⟨w, hw, hwg⟩
    · exact .inl (hcover e he hdigest (.inr hF))
    · by_cases hwv : w.token = v.token
      · obtain rfl := h.tokens w hw v hv hwv
        obtain ⟨e, he, hid, hdigest, -⟩ := h.rows w hw
        exact .inl (hcover e he (hdigest.trans hwg) (.inl hid))
      · refine .inr ⟨w, ?_, hwg⟩
        rw [hp]
        exact List.mem_filter.mpr ⟨hw, by simpa using hwv⟩

theorem accounted_effect (h : s.Accounted) (hstep : step env content s a = some s')
    (hkeep : KeepsPendingRows env content s a) (he : Effect content s a s') : s'.Accounted := by
  have hkept := hkeep s' hstep
  cases he with
  | shrink hstore hp hc ht => exact accounted_of_shrinks h (fun _ he => he) rfl hstore hp ht hkept
  | insertRow hnew hid hstorage hstore hp hc ht =>
      exact accounted_of_shrinks h (fun _ hx => mem_addBoth_of_mem hid hx) rfl hstore hp ht hkept
  | initiateRow hnew hid hstorage hstore hp hc ht =>
      exact accounted_initiate h hid hstorage hstore hp ht
  | writeFile hv hdb hfiles hp hc ht => exact accounted_writeFile h hv hdb hfiles hp ht
  | finish hv hstore hp hc ht => exact accounted_finish h hv hstore hp ht hkept

/-- **No orphan files**, in every run in which no row of an unfinished writer is removed:
once all writers have finished, every file has its 'F' row. -/
theorem noOrphans_of_keepsPendingRows
    (h : Transition.Reachable (step env content) (KeepsPendingRows env content)
      (Set.range (start env)) s) (hp : s.pending = []) : s.NoOrphans := by
  have hinv : s.cache.Sound ∧ s.Accounted := by
    refine h.invariant (I := fun s => s.cache.Sound ∧ s.Accounted) ?_ ?_
    · rintro _ ⟨config, rfl⟩
      obtain ⟨hs, -, hfiles⟩ := start_empty env config
      refine ⟨hs, ?_, ?_, ?_, ?_, fun g hg => absurd (hfiles g) hg⟩
      · exact fun w hw => absurd hw List.not_mem_nil
      · exact fun w hw => absurd hw List.not_mem_nil
      · exact fun w hw => absurd hw List.not_mem_nil
      · exact fun w hw => absurd hw List.not_mem_nil
    · rintro s s' a ⟨hs, hacc⟩ hkeep hstep
      exact ⟨sound_step hs hstep, accounted_effect hacc hstep hkeep (effect_step hs hstep)⟩
  exact hinv.2.noOrphans hp

instance (s : WriterSystem) (a : Action) : Decidable (KeepsPendingRows env content s a) :=
  match h : step env content s a with
  | none => .isTrue (by simp [KeepsPendingRows, h])
  | some s₁ =>
      decidable_of_iff (∀ w ∈ s₁.pending, s.cache.db.cas.Has w.casId → s₁.cache.db.cas.Has w.casId)
        (by simp [KeepsPendingRows, h])

/-- Two writers, a sweep while they are at work, and the removal of a finished entry. -/
def undisturbedRun : List Action :=
  [.initiate 1 [0] [10], .writeFile 0, .initiate 2 [1] [11], .sweep, .finish 0, .removeEntry 1,
    .writeFile 1, .finish 1]

theorem noOrphans_undisturbedRun :
    ∃ s, Transition.run (step ⟨[], fun _ => none⟩ fun _ => ⟨[1], 5⟩)
        (start ⟨[], fun _ => none⟩ {}) undisturbedRun = some s
      ∧ s.pending = [] ∧ s.NoOrphans := by
  have hrun : (Transition.run (step ⟨[], fun _ => none⟩ fun _ => ⟨[1], 5⟩)
      (start ⟨[], fun _ => none⟩ {}) undisturbedRun).map (·.pending) = some [] := by decide
  obtain ⟨s, hs, hp⟩ := Option.map_eq_some_iff.mp hrun
  refine ⟨s, hs, hp, noOrphans_of_keepsPendingRows (.run_of_stepsMeet (.start ⟨{}, rfl⟩) ?_ hs) hp⟩
  decide

/-- A writer whose row is cleared before it writes its file. -/
def clearedRun : List Action := [.initiate 1 [0] [10], .clear, .writeFile 0, .finish 0]

/-- The file stays, without a row. -/
theorem not_noOrphans_clearedRun :
    ¬ ∀ s, Transition.Reachable (step ⟨[], fun _ => none⟩ fun _ => ⟨[1], 5⟩) (fun _ _ => True)
      (Set.range (start ⟨[], fun _ => none⟩)) s → s.pending = [] → s.NoOrphans := by
  intro h
  have hrun : (Transition.run (step ⟨[], fun _ => none⟩ fun _ => ⟨[1], 5⟩)
      (start ⟨[], fun _ => none⟩ {}) clearedRun).map
        (fun s => (s.pending, s.cache.files [10], s.cache.db.cas.rows))
      = some ([], some [1], []) := by decide
  obtain ⟨s, hs, hend⟩ := Option.map_eq_some_iff.mp hrun
  simp only [Prod.mk.injEq] at hend
  obtain ⟨hp, hfile, hrows⟩ := hend
  obtain ⟨e, he, -⟩ := h s (reachable_of_run hs) hp [10] (by simp [hfile])
  rw [← Table.mem_rows, hrows] at he
  exact List.not_mem_nil he

end Cradle.Disk.WriterSystem
