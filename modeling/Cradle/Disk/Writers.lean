import Cradle.Disk.Integrity

/-!
# File writers

`local_disk_cache::write` stores a large value in three steps: `initiate_insert`
creates a row in state 'X' and hands out its id, the file is written without holding
the cache mutex, and `finish_insert` updates the row with that id.  Any number of
writers run at the same time, interleaved with the other calls.

The id is a bare row id.  SQLite gives an id again once the row with the largest id is
gone, so the row that a writer finishes need not be the one it created.  The ghost
`creator` says who did.
-/

namespace Cradle.Disk

/-- What a file writer stores for a value: the compressed data and the original size. -/
structure Content where
  stored : Bytes
  originalSize : ℕ

/-- A task between its `initiate_insert` and its `finish_insert`. -/
structure Writer where
  token : ℕ
  casId : ℤ
  digest : Digest
  written : Bool := false
  deriving DecidableEq

/-- A cache and its unfinished writers.  `creator` gives, for each row id, the writer
whose `initiate_insert` last created a row with that id. -/
structure WriterSystem where
  cache : LLDiskCache
  pending : List Writer := []
  creator : ℤ → Option ℕ := fun _ => none
  nextToken : ℕ := 0

namespace WriterSystem

inductive Action
  | initiate (now : ℕ) (key : Key) (digest : Digest)
  | writeFile (token : ℕ)
  | finish (token : ℕ)
  | insert (now : ℕ) (key : Key) (digest : Digest) (value : Blob)
  | find (key : Key)
  | removeEntry (acId : ℤ)
  | clear
  | sweep

/-- The unfinished writer with the given token. -/
def writer (s : WriterSystem) (token : ℕ) : Option Writer := s.pending.find? (·.token = token)

section
variable (env : LLDiskCache.Env) (content : Digest → Content)

/-- `content` gives what is stored for the value with a given digest. -/
def step (s : WriterSystem) : Action → Option WriterSystem
  | .initiate now key digest =>
      match s.cache.initiateInsert now key digest with
      | (cache, .ok (some casId)) =>
          some {
            cache
            pending := { token := s.nextToken, casId, digest } :: s.pending
            creator := Function.update s.creator casId (some s.nextToken)
            nextToken := s.nextToken + 1 }
      | (cache, _) => some { s with cache }
  | .writeFile token =>
      match s.writer token with
      | some w =>
          if w.written then none
          else some { s with
            cache := { s.cache with
              files := Function.update s.cache.files w.digest (some (content w.digest).stored) }
            pending := s.pending.map fun w =>
              if w.token = token then { w with written := true } else w }
      | none => none
  | .finish token =>
      match s.writer token with
      | some w =>
          if w.written then some { s with
            cache := s.cache.finishInsert w.casId (content w.digest).stored.length
              (content w.digest).originalSize
            pending := s.pending.filter (·.token ≠ token) }
          else none
      | none => none
  | .insert now key digest value =>
      some { s with
        cache := (s.cache.insert now key digest value none).1
        creator :=
          if s.cache.db.acByKey key = none ∧ s.cache.db.casByDigest digest = none then
            Function.update s.creator s.cache.db.newCasId none
          else s.creator }
  | .find key => some { s with cache := (s.cache.find env.blobFiles key).1 }
  | .removeEntry acId => some { s with cache := (s.cache.removeEntry acId).1 }
  | .clear => some { s with cache := s.cache.clear }
  | .sweep => some { s with cache := s.cache.enforceCacheSizeLimit }

/-- A new cache on an empty disk, without writers. -/
def start (config : Config) : WriterSystem :=
  { cache := LLDiskCache.construct env.sharedCacheDir (fun _ => {}) config }

end

theorem reachable_of_run {env : LLDiskCache.Env} {content : Digest → Content} {config : Config}
    {as : List Action} {s : WriterSystem}
    (h : Transition.run (step env content) (start env config) as = some s) :
    Transition.Reachable (step env content) (fun _ _ => True) (Set.range (start env)) s :=
  .run (.start (Set.mem_range_self config)) h

/-! ## What a step does -/

open Directory

/-- `d'` has no row that `d` does not have, and a file only if `d` has it and its 'F' row,
if there was one, is still there. -/
structure Shrinks (d d' : Directory) : Prop where
  rows : ∀ e ∈ d'.db.cas, e ∈ d.db.cas
  files : ∀ g, d'.files g ≠ none → d.files g ≠ none
    ∧ ∀ e ∈ d.db.cas, e.digest = g → e.storage = .inFile → e ∈ d'.db.cas

theorem Shrinks.refl (d : Directory) : Shrinks d d :=
  ⟨fun _ h => h, fun _ h => ⟨h, fun _ he _ _ => he⟩⟩

theorem shrinks_of_evicts {d d' : Directory} (h : Evicts d d') : Shrinks d d' := by
  induction h with
  | refl d => exact .refl d
  | shared _ _ _ _ _ ih => exact ⟨ih.rows, ih.files⟩
  | @last d d' a e ha he hid hlast _ ih =>
      refine ⟨fun x hx => (Table.mem_erase.mp (ih.rows x hx)).1, fun g hg => ?_⟩
      obtain ⟨hfile, hrows⟩ := ih.files g hg
      -- the dropped row takes its own file along, so it is not the row of `g`
      have hne : e.storage = .inFile → g ≠ e.digest := by
        intro hF heq
        simp [dropBoth, hF, heq] at hfile
      refine ⟨?_, fun x hx hxg hF => hrows x (Table.mem_erase.mpr ⟨hx, fun heq => ?_⟩) hxg hF⟩
      · by_cases hF : e.storage = .inFile
        · simpa [dropBoth, hF, Function.update_of_ne (hne hF)] using hfile
        · simpa [dropBoth, hF] using hfile
      · obtain rfl := Table.eq_of_key_eq hx he heq
        exact hne hF hxg.symm

/-- A cache constructed on an empty disk is sound and empty. -/
theorem start_empty (env : LLDiskCache.Env) (config : Config) :
    (start env config).cache.Sound ∧ (∀ e, e ∉ (start env config).cache.db.cas)
      ∧ ∀ g, (start env config).cache.files g = none := by
  have hopen : (LLDiskCache.openDirectory env.sharedCacheDir
      { dir := [], otherDirs := fun _ => {} } config).store = {} := by
    rw [LLDiskCache.openDirectory]
    cases config.startEmpty <;> rfl
  have hsound : (LLDiskCache.openDirectory env.sharedCacheDir
      { dir := [], otherDirs := fun _ => {} } config).Sound :=
    LLDiskCache.Sound.openDirectory (fun _ => .empty) rfl _ config
  obtain ⟨d, hev, heq⟩ := LLDiskCache.enforceCacheSizeLimit_evicts hsound.integral
  rw [hopen] at hev
  have hsh := shrinks_of_evicts hev
  have hcache : (start env config).cache = _ := heq
  refine ⟨hsound.enforceCacheSizeLimit, ?_, ?_⟩
  · rw [hcache]
    exact fun e he => Table.not_mem_empty e (hsh.rows e he)
  · rw [hcache]
    exact fun g => by_contra fun hg => (hsh.files g hg).1 rfl

/-- The step creates a CAS row: neither its key nor its digest is known. -/
def CreatesRow (s : WriterSystem) : Action → Prop
  | .initiate _ key digest | .insert _ key digest _ =>
      s.cache.db.acByKey key = none ∧ s.cache.db.casByDigest digest = none
  | _ => False

/-- The ways in which a step changes the rows, the files and the writers. -/
inductive Effect (content : Digest → Content) (s : WriterSystem) (a : Action) :
    WriterSystem → Prop
  /-- Nothing but removals, and new actions. -/
  | shrink {s' : WriterSystem} (hstore : Shrinks s.cache.store s'.cache.store)
      (hp : s'.pending = s.pending) (hc : s'.creator = s.creator)
      (ht : s'.nextToken = s.nextToken) : Effect content s a s'
  /-- A new row for a value in the database or a blob file; then perhaps a sweep. -/
  | insertRow {s' : WriterSystem} {e : CasRow} {ac : AcRow} (hnew : CreatesRow s a)
      (hid : e.casId = s.cache.db.newCasId) (hstorage : e.storage ≠ .inFile)
      (hstore : Shrinks (s.cache.addBoth e ac).store s'.cache.store)
      (hp : s'.pending = s.pending)
      (hc : s'.creator = Function.update s.creator s.cache.db.newCasId none)
      (ht : s'.nextToken = s.nextToken) : Effect content s a s'
  /-- A new row in state 'X', for a new writer. -/
  | initiateRow {s' : WriterSystem} {e : CasRow} {ac : AcRow} (hnew : CreatesRow s a)
      (hid : e.casId = s.cache.db.newCasId) (hstorage : e.storage = .invalid)
      (hstore : s'.cache.store = (s.cache.addBoth e ac).store)
      (hp : s'.pending
        = { token := s.nextToken, casId := e.casId, digest := e.digest } :: s.pending)
      (hc : s'.creator = Function.update s.creator e.casId (some s.nextToken))
      (ht : s'.nextToken = s.nextToken + 1) : Effect content s a s'
  /-- A writer writes its file. -/
  | writeFile {s' : WriterSystem} {w : Writer} (hw : w ∈ s.pending)
      (hdb : s'.cache.db = s.cache.db)
      (hfiles : s'.cache.files
        = Function.update s.cache.files w.digest (some (content w.digest).stored))
      (hp : s'.pending = s.pending.map fun v =>
        if v.token = w.token then { v with written := true } else v)
      (hc : s'.creator = s.creator) (ht : s'.nextToken = s.nextToken) : Effect content s a s'
  /-- A writer finishes; then perhaps a sweep. -/
  | finish {s' : WriterSystem} {w : Writer} (hw : w ∈ s.pending)
      (hstore : Shrinks (s.cache.finishCasInsert w.casId (content w.digest).stored.length
        (content w.digest).originalSize).store s'.cache.store)
      (hp : s'.pending = s.pending.filter (·.token ≠ w.token))
      (hc : s'.creator = s.creator) (ht : s'.nextToken = s.nextToken) : Effect content s a s'

section
variable {env : LLDiskCache.Env} {content : Digest → Content} {s s' : WriterSystem} {a : Action}

theorem mem_of_writer {token : ℕ} {w : Writer} (h : s.writer token = some w) :
    w ∈ s.pending ∧ w.token = token :=
  ⟨List.mem_of_find?_eq_some h, by simpa using List.find?_some h⟩

theorem shrinks_recordCacheGrowth {c : LLDiskCache} (h : c.db.Integral) (size : ℕ) :
    Shrinks c.store (c.recordCacheGrowth size).store := by
  obtain ⟨d, n, hev, heq⟩ := LLDiskCache.recordCacheGrowth_evicts h size
  rw [heq]
  exact shrinks_of_evicts hev

/-- Every step keeps the tables sound. -/
theorem sound_step (h : s.cache.Sound) (hs : step env content s a = some s') :
    s'.cache.Sound := by
  cases a with
  | initiate now key digest =>
      have hc := h.initiateInsert now key digest
      simp only [step] at hs
      split at hs <;> (obtain rfl := Option.some.inj hs; simp_all)
  | writeFile token =>
      simp only [step] at hs
      split at hs
      · split at hs
        · simp at hs
        · obtain rfl := Option.some.inj hs
          exact ⟨h.integral, h.others, h.log⟩
      · simp at hs
  | finish token =>
      simp only [step] at hs
      split at hs
      · split at hs
        · obtain rfl := Option.some.inj hs
          exact h.finishInsert _ _ _
        · simp at hs
      · simp at hs
  | insert now key digest value =>
      obtain rfl := Option.some.inj hs
      exact h.insert now key digest value none
  | find key =>
      obtain rfl := Option.some.inj hs
      exact h.find env.blobFiles key
  | removeEntry acId =>
      obtain rfl := Option.some.inj hs
      exact h.removeEntry acId
  | clear =>
      obtain rfl := Option.some.inj hs
      exact h.removeAllEntries
  | sweep =>
      obtain rfl := Option.some.inj hs
      exact h.enforceCacheSizeLimit

theorem effect_initiate {now : ℕ} {key : Key} {digest : Digest}
    (hs : step env content s (.initiate now key digest) = some s') :
    Effect content s (.initiate now key digest) s' := by
  rcases s.cache.initiateInsert_cases now key digest with
    ⟨ac, ids, -, heq⟩ | ⟨e, -, -, heq⟩ | ⟨hkey, hdigest, heq⟩
  · simp only [step, heq, Option.some.injEq] at hs
    subst hs
    exact .shrink (.refl _) rfl rfl rfl
  · simp only [step, heq, Option.some.injEq] at hs
    subst hs
    exact .shrink ⟨fun _ h => h, (Shrinks.refl s.cache.store).files⟩ rfl rfl rfl
  · simp only [step, heq, Option.some.injEq] at hs
    subst hs
    exact .initiateRow ⟨hkey, hdigest⟩ rfl rfl rfl rfl rfl rfl

theorem effect_insert {now : ℕ} {key : Key} {digest : Digest} {value : Blob}
    (h : s.cache.Sound)
    (hs : step env content s (.insert now key digest value) = some s') :
    Effect content s (.insert now key digest value) s' := by
  obtain rfl := Option.some.inj hs
  rcases s.cache.insert_cases now key digest value none with
    ⟨ac, ids, hkey, heq⟩ | ⟨e, hkey, hdigest, heq⟩ | ⟨hkey, hdigest, heq⟩
  · refine .shrink ?_ rfl (by simp [hkey]) rfl
    rw [heq]
    exact .refl _
  · refine .shrink ?_ rfl (by simp [hdigest]) rfl
    have hadd : (s.cache.addAc (s.cache.newAction now key e.casId)).db.Integral :=
      LLDiskCache.integral_addAc h.integral hkey (Db.mem_of_casByDigest hdigest).1
    have hsh := shrinks_recordCacheGrowth hadd 0
    rw [heq]
    exact ⟨hsh.rows, hsh.files⟩
  · have hid := LLDiskCache.valueRow_casId s.cache.db.newCasId digest value
      ((none : Option ℕ).getD value.size)
    have hsh := shrinks_recordCacheGrowth (LLDiskCache.integral_addBoth h.integral hkey hid
      (by simpa using hdigest) : (s.cache.addBoth _ (s.cache.newAction now key _)).db.Integral)
      value.size
    refine .insertRow ⟨hkey, hdigest⟩ hid ?_ (by rw [heq]; exact hsh) rfl
      (by simp [hkey, hdigest]) rfl
    rw [LLDiskCache.valueRow]
    split <;> simp

/-- Every step has one of the effects. -/
theorem effect_step (h : s.cache.Sound) (hs : step env content s a = some s') :
    Effect content s a s' := by
  cases a with
  | initiate now key digest => exact effect_initiate hs
  | writeFile token =>
      simp only [step] at hs
      cases hw : s.writer token with
      | none => simp [hw] at hs
      | some w =>
          obtain ⟨hmem, rfl⟩ := mem_of_writer hw
          simp only [hw, Option.ite_none_left_eq_some, Option.some.injEq] at hs
          obtain ⟨-, rfl⟩ := hs
          exact .writeFile hmem rfl rfl rfl rfl rfl
  | finish token =>
      simp only [step] at hs
      cases hw : s.writer token with
      | none => simp [hw] at hs
      | some w =>
          obtain ⟨hmem, rfl⟩ := mem_of_writer hw
          simp only [hw, Option.ite_none_right_eq_some, Option.some.injEq] at hs
          obtain ⟨-, rfl⟩ := hs
          refine .finish hmem (shrinks_recordCacheGrowth ?_ _) rfl rfl rfl
          exact h.integral.updateCas _ (LLDiskCache.finishRow_casId _ _) (by intro e; rfl)
  | insert now key digest value => exact effect_insert h hs
  | find key =>
      obtain rfl := Option.some.inj hs
      obtain ⟨ids, hits, misses, heq⟩ := s.cache.find_eq env.blobFiles key
      refine .shrink ?_ rfl rfl rfl
      rw [heq]
      exact .refl _
  | removeEntry acId =>
      obtain rfl := Option.some.inj hs
      obtain ⟨d, hev, heq⟩ := LLDiskCache.removeEntry_evicts h.integral acId
      refine .shrink ?_ rfl rfl rfl
      rw [heq]
      exact shrinks_of_evicts hev
  | clear =>
      obtain rfl := Option.some.inj hs
      obtain ⟨d, hev, heq⟩ := LLDiskCache.removeAllEntries_evicts h.integral
      refine .shrink ?_ rfl rfl rfl
      rw [LLDiskCache.clear, heq]
      exact shrinks_of_evicts hev
  | sweep =>
      obtain rfl := Option.some.inj hs
      obtain ⟨d, hev, heq⟩ := LLDiskCache.enforceCacheSizeLimit_evicts h.integral
      refine .shrink ?_ rfl rfl rfl
      rw [heq]
      exact shrinks_of_evicts hev

end
end WriterSystem
end Cradle.Disk
