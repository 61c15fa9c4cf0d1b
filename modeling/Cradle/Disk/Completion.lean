import Cradle.Disk.Writers

/-!
# Which row a writer finishes

A writer's id designates its own row as long as no row is created under the id of an
unfinished writer.  Then `finish_insert` updates the row that its `initiate_insert`
created, or none, and the sizes in an 'F' row are those of the value with its digest.
An id is given out again after the removal of the row with the largest id.
-/

namespace Cradle.Disk.WriterSystem

variable {env : LLDiskCache.Env} {content : Digest → Content} {s s' : WriterSystem} {a : Action}

/-- The update made by a `finish_insert` of an unfinished writer leaves alone every row that
was not created by its `initiate_insert`. -/
def FinishesOwn (content : Digest → Content) (s : WriterSystem) : Prop :=
  ∀ w ∈ s.pending, ∀ e ∈ s.cache.db.cas, s.creator e.casId ≠ some w.token →
    e ∈ (s.cache.finishCasInsert w.casId (content w.digest).stored.length
      (content w.digest).originalSize).db.cas

/-- Every row in state 'F' carries the sizes of the value with its digest. -/
def SizesMatch (content : Digest → Content) (s : WriterSystem) : Prop :=
  ∀ e ∈ s.cache.db.cas, e.storage = .inFile →
    e.size = some (content e.digest).stored.length
      ∧ e.originalSize = some (content e.digest).originalSize

/-- A row is created only under an id that no unfinished writer holds. -/
def FreshId (s : WriterSystem) (a : Action) : Prop :=
  CreatesRow s a → ∀ w ∈ s.pending, w.casId ≠ s.cache.db.newCasId

/-- The id of an unfinished writer designates its own row, if any. -/
def OwnRows (s : WriterSystem) : Prop :=
  ∀ w ∈ s.pending, ∀ e ∈ s.cache.db.cas, e.casId = w.casId →
    s.creator e.casId = some w.token ∧ e.digest = w.digest

theorem OwnRows.finishesOwn (h : s.OwnRows) : s.FinishesOwn content := by
  intro w hw e he hne
  refine (Table.mem_modify (LLDiskCache.finishRow_casId _ _)).mpr ⟨e, he, ?_⟩
  rw [if_neg fun hid => hne (h w hw e he hid).1]

/-- A row that was there before a new one is not under the new id. -/
theorem casId_ne_newCasId {e : CasRow} (he : e ∈ s.cache.db.cas) :
    e.casId ≠ s.cache.db.newCasId :=
  (Db.casId_lt_newCasId he).ne

theorem mem_addBoth {c : LLDiskCache} {e x : CasRow} {ac : AcRow} (hid : e.casId = c.db.newCasId)
    (hx : x ∈ (c.addBoth e ac).store.db.cas) : x ∈ c.db.cas ∨ x = e := by
  refine (Table.mem_insert ?_).mp hx
  rw [hid]
  exact Db.not_has_newCasId _

theorem ownRows_effect (h : s.OwnRows) (hfresh : FreshId s a) (he : Effect content s a s') :
    s'.OwnRows := by
  cases he with
  | shrink hstore hp hc ht =>
      intro w hw x hx hid
      rw [hp] at hw
      rw [hc]
      exact h w hw x (hstore.rows x hx) hid
  | @insertRow e ac hnew hid hstorage hstore hp hc ht =>
      intro w hw x hx hxw
      rw [hp] at hw
      rcases mem_addBoth hid (hstore.rows x hx) with hx | rfl
      · rw [hc, Function.update_of_ne (casId_ne_newCasId hx)]
        exact h w hw x hx hxw
      · exact absurd (hxw.symm.trans hid) (hfresh hnew w hw)
  | @initiateRow e ac hnew hid hstorage hstore hp hc ht =>
      intro w hw x hx hxw
      have hx : x ∈ s'.cache.store.db.cas := hx
      rw [hstore] at hx
      rw [hp] at hw
      rw [hc]
      rcases mem_addBoth hid hx with hx | rfl
      · have hne : x.casId ≠ e.casId := by
          rw [hid]
          exact casId_ne_newCasId hx
        rw [Function.update_of_ne hne]
        rcases List.mem_cons.mp hw with rfl | hw
        · exact absurd hxw hne
        · exact h w hw x hx hxw
      · rcases List.mem_cons.mp hw with rfl | hw
        · exact ⟨Function.update_self _ _ _, rfl⟩
        · exact absurd (hxw.symm.trans hid) (hfresh hnew w hw)
  | @writeFile v hv hdb hfiles hp hc ht =>
      intro w hw x hx hxw
      rw [hp] at hw
      rw [hdb] at hx
      rw [hc]
      obtain ⟨w₀, hw₀, rfl⟩ := List.mem_map.mp hw
      have := h w₀ hw₀ x hx
      split at hxw <;> simp_all
  | @finish v hv hstore hp hc ht =>
      intro w hw x hx hxw
      rw [hp] at hw
      rw [hc]
      obtain ⟨x₀, hx₀, rfl⟩ :=
        (Table.mem_modify (LLDiskCache.finishRow_casId _ _)).mp (hstore.rows x hx)
      have := h w (List.mem_filter.mp hw).1 x₀ hx₀
      split at hxw
      · next hid =>
          rw [if_pos hid]
          exact this hxw
      · next hid =>
          rw [if_neg hid]
          exact this hxw

theorem sizesMatch_effect (h : s.SizesMatch content) (hown : s.OwnRows)
    (he : Effect content s a s') : s'.SizesMatch content := by
  cases he with
  | shrink hstore hp hc ht => exact fun x hx => h x (hstore.rows x hx)
  | @insertRow e ac hnew hid hstorage hstore hp hc ht =>
      intro x hx hF
      rcases mem_addBoth hid (hstore.rows x hx) with hx | rfl
      · exact h x hx hF
      · exact absurd hF hstorage
  | @initiateRow e ac hnew hid hstorage hstore hp hc ht =>
      intro x hx hF
      have hx : x ∈ s'.cache.store.db.cas := hx
      rw [hstore] at hx
      rcases mem_addBoth hid hx with hx | rfl
      · exact h x hx hF
      · rw [hstorage] at hF
        exact absurd hF (by decide)
  | writeFile hv hdb hfiles hp hc ht =>
      intro x hx
      rw [hdb] at hx
      exact h x hx
  | @finish v hv hstore hp hc ht =>
      intro x hx hF
      obtain ⟨x₀, hx₀, rfl⟩ :=
        (Table.mem_modify (LLDiskCache.finishRow_casId _ _)).mp (hstore.rows x hx)
      by_cases hid : x₀.casId = v.casId
      · -- the finished row is the writer's own, so it has the writer's digest
        rw [if_pos hid]
        have hdigest := (hown v hv x₀ hx₀ hid).2
        simp only [LLDiskCache.finishRow, hdigest, and_self]
      · rw [if_neg hid] at hF ⊢
        exact h x₀ hx₀ hF

/-- **Completion goes to its own entry**, in every run in which rows are created only under
ids that no unfinished writer holds. -/
theorem completion_of_freshIds (h : Transition.Reachable (step env content) FreshId
    (Set.range (start env)) s) : s.FinishesOwn content ∧ s.SizesMatch content := by
  have hinv : s.cache.Sound ∧ s.OwnRows ∧ s.SizesMatch content := by
    refine h.invariant (I := fun s => s.cache.Sound ∧ s.OwnRows ∧ s.SizesMatch content) ?_ ?_
    · rintro _ ⟨config, rfl⟩
      obtain ⟨hs, hrows, -⟩ := start_empty env config
      exact ⟨hs, fun w hw => absurd hw List.not_mem_nil, fun e he => absurd he (hrows e)⟩
    · rintro s s' a ⟨hs, hown, hsizes⟩ hfresh hstep
      have he := effect_step hs hstep
      exact ⟨sound_step hs hstep, ownRows_effect hown hfresh he, sizesMatch_effect hsizes hown he⟩
  exact ⟨hinv.2.1.finishesOwn, hinv.2.2⟩

/-- Two values, 1 byte compressed from 5 and 2 bytes compressed from 7. -/
def twoContents (digest : Digest) : Content := if digest = [10] then ⟨[1], 5⟩ else ⟨[2, 2], 7⟩

/-- Two overlapping writers, of which the second one finishes first. -/
def overlappingRun : List Action :=
  [.initiate 1 [0] [10], .initiate 2 [1] [11], .writeFile 1, .writeFile 0, .finish 1, .find [0],
    .finish 0]

instance (s : WriterSystem) : (a : Action) → Decidable (CreatesRow s a)
  | .initiate _ _ _ | .insert _ _ _ _ => inferInstanceAs (Decidable (_ ∧ _))
  | .writeFile _ | .finish _ | .find _ | .removeEntry _ | .clear | .sweep => .isFalse id

instance (s : WriterSystem) (a : Action) : Decidable (FreshId s a) :=
  inferInstanceAs (Decidable (_ → _))

theorem completion_overlappingRun :
    ∃ s, Transition.run (step ⟨[], fun _ => none⟩ twoContents) (start ⟨[], fun _ => none⟩ {})
        overlappingRun = some s
      ∧ s.FinishesOwn twoContents ∧ s.SizesMatch twoContents := by
  obtain ⟨s, hs⟩ := Option.isSome_iff_exists.mp (by decide : (Transition.run
    (step ⟨[], fun _ => none⟩ twoContents) (start ⟨[], fun _ => none⟩ {}) overlappingRun).isSome)
  refine ⟨s, hs, completion_of_freshIds (.run_of_stepsMeet (.start ⟨{}, rfl⟩) ?_ hs)⟩
  decide

/-- A writer whose row is cleared, and another one that is given the same id. -/
def reusedIdRun : List Action :=
  [.initiate 1 [0] [10], .clear, .initiate 2 [1] [11], .writeFile 0, .finish 0]

/-- The first writer then puts its sizes into the row of the second one. -/
theorem not_completion_reusedIdRun :
    ¬ ∀ s, Transition.Reachable (step ⟨[], fun _ => none⟩ twoContents) (fun _ _ => True)
      (Set.range (start ⟨[], fun _ => none⟩)) s →
        s.FinishesOwn twoContents ∧ s.SizesMatch twoContents := by
  intro h
  have hrows : (Transition.run (step ⟨[], fun _ => none⟩ twoContents)
      (start ⟨[], fun _ => none⟩ {}) reusedIdRun).map (fun s => s.cache.db.cas.rows)
      = some [{ casId := 1, digest := [11], storage := .inFile, size := some 1,
                originalSize := some 5 }] := by decide
  obtain ⟨s, hs, hcas⟩ := Option.map_eq_some_iff.mp hrows
  have hsizes := (h s (reachable_of_run hs)).2
  have hmem : (⟨1, [11], .inFile, none, some 1, some 5⟩ : CasRow) ∈ s.cache.db.cas := by
    rw [← Table.mem_rows, hcas]
    exact List.mem_singleton_self _
  exact absurd (hsizes _ hmem rfl).1 (by decide)

end Cradle.Disk.WriterSystem
