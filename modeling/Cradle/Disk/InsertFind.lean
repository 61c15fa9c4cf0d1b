import Cradle.Disk.Recency

/-!
# What `find` returns after `insert`

A plain blob is stored in its row, a blob that maps a file is stored as the path of the
file, and both are identified by the digest of what is hashed: the data, or the path.
`find` maps the whole file, so a blob that covers a part of its file is not found again.

An insertion may be followed by a sweep, which evicts the new key too if the new value
does not fit in the size limit together with what was used later.  `Fits` says this of
the cache before the insertion, and `Storable` what the rows make of the value.
-/

namespace Cradle.Disk

open Directory

/-! ## What a sweep leaves of a new key -/

/-- A sum over some of the rows. -/
theorem totalOf_le {db db' : Db} (hi : db'.Integral) (hrows : ∀ e ∈ db'.cas, e ∈ db.cas)
    {as : List AcRow} (has : ∀ a ∈ as, a ∈ db'.actions) : db.totalOf as ≤ db'.totalCasSize := by
  refine Table.sum_le_sum_of_subset (fun e he => ?_) fun e _ => LLDiskCache.weight_nonneg e
  obtain ⟨he, href⟩ := Table.mem_filter.mp he
  obtain ⟨a, ha, hid⟩ := of_decide_eq_true href
  obtain ⟨x, hx, hxid⟩ := hi.refers a (has a ha)
  obtain rfl := Table.eq_of_key_eq (hrows x hx) he (hxid.trans hid)
  exact hx

/-- Sorting puts a last entry behind all entries that were not used later. -/
theorem insertionSort_append_singleton (l : List AcRow) (a : AcRow) :
    ∃ pre post, (l ++ [a]).insertionSort (fun a b => a.lastAccessed ≤ b.lastAccessed)
        = pre ++ a :: post
      ∧ (∀ b ∈ pre, b.lastAccessed ≤ a.lastAccessed)
      ∧ ∀ b ∈ post, a.lastAccessed < b.lastAccessed := by
  induction l with
  | nil => exact ⟨[], [], rfl, by simp, by simp⟩
  | cons x l ih =>
      obtain ⟨pre, post, hsort, hpre, hpost⟩ := ih
      simp only [List.cons_append, List.insertionSort_cons, hsort]
      by_cases hx : x.lastAccessed ≤ a.lastAccessed
      · -- the entry goes somewhere before the last one
        obtain ⟨pre', hpre', hmem⟩ : ∃ pre', (pre ++ a :: post).orderedInsert
            (fun a b => a.lastAccessed ≤ b.lastAccessed) x = pre' ++ a :: post
            ∧ ∀ b ∈ pre', b = x ∨ b ∈ pre := by
          clear hsort hpre
          induction pre with
          | nil => exact ⟨[x], by simp [hx], by simp⟩
          | cons y pre ih =>
              by_cases hy : x.lastAccessed ≤ y.lastAccessed
              · exact ⟨x :: y :: pre, by simp [hy], by simp⟩
              · obtain ⟨pre', heq, hmem⟩ := ih
                refine ⟨y :: pre', by simp [hy, heq], fun b hb => ?_⟩
                rcases List.mem_cons.mp hb with rfl | hb
                · exact .inr List.mem_cons_self
                · exact (hmem b hb).imp_right (List.mem_cons_of_mem y)
        refine ⟨pre', post, hpre', fun b hb => ?_, hpost⟩
        rcases hmem b hb with rfl | hb
        · exact hx
        · exact hpre b hb
      · -- it was used later than all that is in front
        have hskip : ∀ l : List AcRow, (∀ b ∈ l, b.lastAccessed ≤ a.lastAccessed) →
            (l ++ a :: post).orderedInsert (fun a b => a.lastAccessed ≤ b.lastAccessed) x
              = l ++ a :: post.orderedInsert (fun a b => a.lastAccessed ≤ b.lastAccessed) x := by
          intro l hl
          induction l with
          | nil => simp [hx]
          | cons y l ih =>
              have hy : ¬ x.lastAccessed ≤ y.lastAccessed := by
                have := hl y List.mem_cons_self
                omega
              simp [hy, ih fun b hb => hl b (List.mem_cons_of_mem y hb)]
        refine ⟨pre, _, hskip pre hpre, hpre, fun b hb => ?_⟩
        rcases (List.mem_orderedInsert _).mp hb with rfl | hb
        · omega
        · exact hpost b hb

namespace LLDiskCache

variable {c : LLDiskCache}

/-- The size of the rows that a sweep evicts after the new key at the earliest: the one
with its digest, and those of the actions that were used later. -/
def laterSize (c : LLDiskCache) (now : ℕ) (digest : Digest) : ℤ :=
  (c.db.cas.filter fun e => e.digest = digest
    ∨ ∃ a ∈ c.db.actions.rows, now < a.lastAccessed ∧ a.casId = e.casId).sum CasRow.weight

/-- The size limit lets the new key stay. -/
def Fits (c : LLDiskCache) (now : ℕ) (digest : Digest) (value : Blob) : Prop :=
  ¬ c.Sweeps digest value ∨ c.laterSize now digest + c.growth digest value ≤ c.sizeLimit

instance (c : LLDiskCache) (now : ℕ) (digest : Digest) (value : Blob) :
    Decidable (c.Fits now digest value) :=
  inferInstanceAs (Decidable (_ ∨ _))

/-- The rows of a new key: its action refers to the row with its digest, and what is
evicted after it at the earliest has the size `laterSize` with the new row added. -/
theorem insertRows_spec (h : c.db.Integral) (now : ℕ) (key : Key) (digest : Digest)
    (value : Blob) (originalSize : Option ℕ) :
    ∃ i, (c.insertRows now key digest value originalSize).db.actions
        = c.db.actions.insert (c.newAction now key i)
      ∧ ∀ post, (∀ b, b ∈ post ↔ b ∈ c.db.actions ∧ now < b.lastAccessed) →
        (c.insertRows now key digest value originalSize).db.totalOf (c.newAction now key i :: post)
          = c.laterSize now digest + c.growth digest value := by
  rw [insertRows, growth, laterSize]
  cases hdigest : c.db.casByDigest digest with
  | some e =>
      obtain ⟨he, hed⟩ := Db.mem_of_casByDigest hdigest
      refine ⟨e.casId, rfl, fun post hpost => ?_⟩
      rw [Option.isSome_some, if_pos rfl, Nat.cast_zero, add_zero, Db.totalOf]
      congr 1
      refine Table.filter_congr fun x hx => decide_eq_decide.mpr ?_
      have hsame : e.casId = x.casId ↔ x.digest = digest := by
        constructor
        · intro hid
          rw [← hed, Table.eq_of_key_eq he hx hid]
        · intro hxd
          rw [h.digests e he x hx (hed.trans hxd.symm)]
      simp [newAction, hsame, hpost, and_assoc, Table.mem_rows]
  | none =>
      refine ⟨c.db.newCasId, rfl, fun post hpost => ?_⟩
      let row := valueRow c.db.newCasId digest value (originalSize.getD value.size)
      have hid : row.casId = c.db.newCasId := valueRow_casId _ _ _ _
      have hnew : ¬ c.db.cas.Has row.casId := by
        rw [hid]
        exact Db.not_has_newCasId _
      have hweight : row.weight = value.size := by
        simp [row, CasRow.weight]
      have hold : ∀ x ∈ c.db.cas, (∃ a ∈ c.newAction now key c.db.newCasId :: post,
          a.casId = x.casId) ↔ (x.digest = digest
            ∨ ∃ a ∈ c.db.actions.rows, now < a.lastAccessed ∧ a.casId = x.casId) := by
        intro x hx
        have hlt : x.casId < c.db.newCasId := Db.casId_lt_newCasId hx
        have hne : c.db.newCasId ≠ x.casId := by omega
        have hdig : x.digest ≠ digest := Db.casByDigest_eq_none.mp hdigest x hx
        simp [newAction, hne, hdig, hpost, and_assoc, Table.mem_rows]
      have hself : ∃ a ∈ c.newAction now key c.db.newCasId :: post, a.casId = row.casId :=
        ⟨_, List.mem_cons_self, hid.symm⟩
      have hsum := Table.sum_filter_insert hnew (w := CasRow.weight)
        fun e => decide (∃ a ∈ c.newAction now key c.db.newCasId :: post, a.casId = e.casId)
      rw [if_pos (decide_eq_true hself), hweight] at hsum
      rw [Table.filter_congr fun x hx => decide_eq_decide.mpr (hold x hx)] at hsum
      exact hsum

/-- The new key is still there after its insertion exactly if it fits. -/
theorem acByKey_insert_iff (h : c.Sound) {key : Key} (hkey : c.db.acByKey key = none) (now : ℕ)
    (digest : Digest) (value : Blob) (originalSize : Option ℕ) :
    (c.insert now key digest value originalSize).1.db.acByKey key ≠ none
      ↔ c.Fits now digest value := by
  have hadds := addsRow_insertRows h hkey now digest value originalSize
  obtain ⟨i, hact, htotal⟩ := insertRows_spec h.integral now key digest value originalSize
  have hrows := Table.rows_insert (a := c.newAction now key i) (Db.not_has_newAcId c.db)
  rw [insert_of_new hkey, Fits, ← hadds.limit]
  generalize c.insertRows now key digest value originalSize = c' at *
  rw [← hact] at hrows
  have hmem : c.newAction now key i ∈ c'.db.actions := by
    rw [← Table.mem_rows, hrows]
    exact List.mem_append_right _ List.mem_cons_self
  -- the key is there as long as its action is
  have hthere : ∀ db : Db, (∀ a ∈ db.actions, a ∈ c'.db.actions) →
      (db.acByKey key ≠ none ↔ c.newAction now key i ∈ db.actions) := by
    intro db hsub
    constructor
    · intro hne
      obtain ⟨a, ha⟩ := Option.ne_none_iff_exists'.mp hne
      obtain ⟨ha, hak⟩ := Db.mem_of_acByKey ha
      rwa [← hadds.sound.integral.keys a (hsub a ha) _ hmem hak]
    · intro ha hnone
      exact Db.acByKey_eq_none.mp hnone _ ha rfl
  by_cases hsweep : c.Sweeps digest value
  · have hsweep' : c'.sizeLimit / 0x80
        < c'.bytesInsertedSinceLastSweep + c.growth digest value := by
      rw [hadds.limit, hadds.bytes]
      exact hsweep
    obtain ⟨n, hleft, hwithin, hshort⟩ :=
      recordCacheGrowth_shortest hadds.sound.integral hsweep'
    obtain ⟨d, m, hev, heq⟩ :=
      recordCacheGrowth_evicts hadds.sound.integral (c.growth digest value)
    have hdb : (c'.recordCacheGrowth (c.growth digest value)).db = d.db := by
      rw [heq]
      rfl
    rw [hdb] at hleft hwithin ⊢
    obtain ⟨pre, post, hsort, hpre, hpost⟩ :=
      insertionSort_append_singleton c.db.actions.rows (c.newAction now key i)
    rw [← hrows] at hsort
    have horder : c'.db.acLruEntries = pre ++ c.newAction now key i :: post := hsort
    have hlater : ∀ b, b ∈ post ↔ b ∈ c.db.actions ∧ now < b.lastAccessed := by
      intro b
      have hb : b ∈ pre ++ c.newAction now key i :: post ↔ b ∈ c'.db.actions.rows := by
        rw [← hsort]
        exact List.mem_insertionSort _
      rw [hrows] at hb
      constructor
      · intro hbp
        have hlt : now < b.lastAccessed := hpost b hbp
        have hmem := hb.mp (List.mem_append_right _ (List.mem_cons_of_mem _ hbp))
        rcases List.mem_append.mp hmem with hold | hnew
        · exact ⟨hold, hlt⟩
        · rw [List.mem_singleton.mp hnew] at hlt
          exact absurd hlt (lt_irrefl now)
      · rintro ⟨hbc, hlt⟩
        rcases List.mem_append.mp (hb.mpr (List.mem_append_left _ hbc)) with hbp | hbp
        · exact absurd hlt (not_lt.mpr (hpre b hbp))
        · rcases List.mem_cons.mp hbp with rfl | hbp
          · exact absurd hlt (lt_irrefl now)
          · exact hbp
    have htotal := htotal post hlater
    rw [hthere d.db hev.actions_subset, hleft, horder]
    constructor
    · intro ha
      refine .inr (htotal ▸ le_trans (totalOf_le (hev.integral hadds.sound.integral)
        (WriterSystem.shrinks_of_evicts hev).rows fun b hb => ?_) hwithin)
      -- the new action is left, so all behind it are
      have hn : n ≤ pre.length := by
        by_contra hn
        have hdrop : (pre ++ c.newAction now key i :: post).drop n
            = post.drop (n - pre.length - 1) := by
          rw [List.drop_append, List.drop_eq_nil_of_le (by omega), List.nil_append]
          obtain ⟨k, hk⟩ : ∃ k, n - pre.length = k + 1 := ⟨n - pre.length - 1, by omega⟩
          rw [hk, List.drop_succ_cons, Nat.add_sub_cancel]
        rw [hdrop] at ha
        exact absurd (hpost _ (List.mem_of_mem_drop ha)) (lt_irrefl now)
      rw [hleft, horder, List.drop_append_of_le_length hn]
      exact List.mem_append_right _ hb
    · intro hfits
      have hle : c.laterSize now digest + c.growth digest value ≤ c'.sizeLimit :=
        hfits.resolve_left fun hno => hno hsweep
      have hn : n ≤ pre.length := by
        by_contra hn
        have hlt := hshort pre.length (by omega)
        rw [horder, List.drop_left] at hlt
        omega
      rw [List.drop_append_of_le_length hn]
      exact List.mem_append_right _ List.mem_cons_self
  · have hdb : (c'.recordCacheGrowth (c.growth digest value)).db = c'.db := by
      have hno : ¬ c'.sizeLimit / 0x80
          < c'.bytesInsertedSinceLastSweep + c.growth digest value := by
        rw [hadds.limit, hadds.bytes]
        exact hsweep
      rw [recordCacheGrowth]
      simp only [if_neg hno]
    rw [hdb]
    exact ⟨fun _ => .inl hsweep, fun _ => (hthere c'.db fun _ ha => ha).mpr hmem⟩

/-! ## What the rows hold -/

/-- Every row, of the open directory and of the others, satisfies `P`. -/
structure Rows (P : CasRow → Prop) (c : LLDiskCache) : Prop where
  rows : ∀ e ∈ c.db.cas, P e
  others : ∀ d, ∀ e ∈ (c.otherDirs d).db.cas, P e

/-- The rows that a call may write satisfy `P`. -/
def Writes (P : CasRow → Prop) (c : LLDiskCache) : Op → Prop
  | .insert _ _ digest value originalSize =>
      ∀ casId, P (valueRow casId digest value (originalSize.getD value.size))
  | .initiateInsert _ _ digest => ∀ casId, P { casId, digest, storage := .invalid }
  | .finishInsert casId size originalSize =>
      ∀ e ∈ c.db.cas, e.casId = casId → P (finishRow size originalSize e)
  | _ => True

namespace Rows

variable {P : CasRow → Prop}

theorem of_evicts (h : c.Rows P) {d : Directory} (hev : Evicts c.store d) :
    (c.withStore d).Rows P :=
  ⟨fun e he => h.rows e ((WriterSystem.shrinks_of_evicts hev).rows e he), h.others⟩

theorem recordCacheGrowth (h : c.Rows P) (hi : c.db.Integral) (size : ℕ) :
    (c.recordCacheGrowth size).Rows P := by
  obtain ⟨d, n, hev, heq⟩ := recordCacheGrowth_evicts hi size
  have hrows := h.of_evicts hev
  rw [heq]
  exact ⟨hrows.rows, hrows.others⟩

theorem addBoth (h : c.Rows P) {e : CasRow} (hid : e.casId = c.db.newCasId) (he : P e)
    (a : AcRow) : (c.addBoth e a).Rows P := by
  refine ⟨fun x hx => ?_, h.others⟩
  rcases (Table.mem_insert (not_has_casId hid)).mp hx with hx | rfl
  · exact h.rows x hx
  · exact he

theorem openDirectory (hothers : ∀ d, ∀ e ∈ (c.otherDirs d).db.cas, P e)
    (sharedCacheDir : Bytes) (config : Config) : (openDirectory sharedCacheDir c config).Rows P := by
  rw [LLDiskCache.openDirectory]
  cases config.startEmpty with
  | true => exact ⟨fun e he => absurd (Table.mem_filter.mp he).1 (Table.not_mem_empty e), hothers⟩
  | false => exact ⟨fun e he => hothers _ e (Table.mem_filter.mp he).1, hothers⟩

theorem others_update (h : c.Rows P) (d : Bytes) :
    ∀ e ∈ (Function.update c.otherDirs c.dir ⟨c.db, c.files⟩ d).db.cas, P e := by
  by_cases hd : d = c.dir
  · rw [hd, Function.update_self]
    exact h.rows
  · rw [Function.update_of_ne hd]
    exact h.others d

theorem initializeCache (hi : ∀ d, (c.otherDirs d).db.Integral) (hlog : c.errorLog = [])
    (hothers : ∀ d, ∀ e ∈ (c.otherDirs d).db.cas, P e) (sharedCacheDir : Bytes)
    (config : Config) : (initializeCache sharedCacheDir c config).Rows P := by
  obtain ⟨d, hev, heq⟩ := enforceCacheSizeLimit_evicts
    (Sound.openDirectory hi hlog sharedCacheDir config).integral
  have hrows := (openDirectory hothers sharedCacheDir config).of_evicts hev
  rw [LLDiskCache.initializeCache, heq]
  exact ⟨hrows.rows, hrows.others⟩

/-- A call keeps what holds of all rows, if the rows that it may write have it. -/
theorem step (h : c.Rows P) (hs : c.Sound) (env : Env) {op : Op} (hop : c.Writes P op) :
    (step env c op).Rows P := by
  cases op with
  | insert now key digest value originalSize =>
      rcases c.insert_cases now key digest value originalSize with
        ⟨a, ids, -, heq⟩ | ⟨e, hkey, hdigest, heq⟩ | ⟨hkey, hdigest, heq⟩
      · rw [LLDiskCache.step, heq]
        exact ⟨h.rows, h.others⟩
      · rw [LLDiskCache.step, heq]
        have hadd : (c.addAc (c.newAction now key e.casId)).Rows P := ⟨h.rows, h.others⟩
        exact hadd.recordCacheGrowth
          (integral_addAc hs.integral hkey (Db.mem_of_casByDigest hdigest).1) 0
      · rw [LLDiskCache.step, heq]
        have hid := valueRow_casId c.db.newCasId digest value (originalSize.getD value.size)
        exact (h.addBoth hid (hop _) _).recordCacheGrowth
          (integral_addBoth hs.integral hkey hid (by simpa using hdigest)) value.size
  | initiateInsert now key digest =>
      rcases c.initiateInsert_cases now key digest with
        ⟨a, ids, -, heq⟩ | ⟨e, -, -, heq⟩ | ⟨-, -, heq⟩
      · rw [LLDiskCache.step, heq]
        exact ⟨h.rows, h.others⟩
      · rw [LLDiskCache.step, heq]
        exact ⟨h.rows, h.others⟩
      · rw [LLDiskCache.step, heq]
        exact h.addBoth rfl (hop _) _
  | finishInsert casId size originalSize =>
      have hfinish : (c.finishCasInsert casId size originalSize).Rows P := by
        refine ⟨fun e he => ?_, h.others⟩
        obtain ⟨x, hx, rfl⟩ := (Table.mem_modify (finishRow_casId _ _)).mp he
        split
        · next hid => exact hop x hx hid
        · exact h.rows x hx
      exact hfinish.recordCacheGrowth (hs.integral.updateCas casId (finishRow_casId _ _)
        (by intro e; rfl)) size
  | find key =>
      obtain ⟨ids, hits, misses, heq⟩ := c.find_eq env.blobFiles key
      rw [LLDiskCache.step, heq]
      exact ⟨h.rows, h.others⟩
  | lookUpAcId key =>
      obtain ⟨ids, heq, -⟩ := c.lookUpAcAndCasIds_eq key
      rw [LLDiskCache.step, lookUpAcId, heq]
      exact ⟨h.rows, h.others⟩
  | removeEntry acId =>
      obtain ⟨d, hev, heq⟩ := removeEntry_evicts hs.integral acId
      rw [LLDiskCache.step, heq]
      exact h.of_evicts hev
  | clear =>
      obtain ⟨d, hev, heq⟩ := removeAllEntries_evicts hs.integral
      rw [LLDiskCache.step, LLDiskCache.clear, heq]
      exact h.of_evicts hev
  | flushAcUsage now forced idle =>
      exact flushAcUsage_rule h (fun _ hc _ _ => ⟨hc.rows, hc.others⟩)
        (fun _ hc => ⟨hc.rows, hc.others⟩) now forced idle
  | reset config =>
      exact initializeCache
        (c := { c with otherDirs := Function.update c.otherDirs c.dir ⟨c.db, c.files⟩ })
        hs.others_update hs.log h.others_update env.sharedCacheDir config
  | restart config =>
      exact initializeCache
        (c := { dir := [], otherDirs := Function.update c.otherDirs c.dir ⟨c.db, c.files⟩ })
        hs.others_update rfl h.others_update env.sharedCacheDir config

end Rows

/-! ## Values and their rows -/

section Values
variable (sha : Bytes → Digest) (blobFiles : Bytes → Option Bytes)

/-- What a row says of the value with its digest.  A value that is written to a file by
the caller is not in the row. -/
def Labelled (e : CasRow) : Prop :=
  match e.storage with
  | .inDb => ∃ value : Blob, value.mappedFile = none ∧ e.digest = sha value.stream
      ∧ e.value = if value.nullData then none else some value.data
  | .blobFile => ∃ path, e.digest = sha (0x01 :: path) ∧ e.value = some path
  | .inFile | .invalid => e.value = none

/-- The contract of the callers: a value is inserted under its digest, and only the row
of an `initiate_insert` is finished. -/
def Contract (c : LLDiskCache) : Op → Prop
  | .insert _ _ digest value _ => digest = sha value.stream
  | .finishInsert casId _ _ =>
      ∀ e ∈ c.db.cas, e.casId = casId → e.storage = .invalid ∨ e.storage = .inFile
  | _ => True

/-- The row that the value has or gets holds its bytes: a plain value is in a row with a
non-`NULL` value, and a value that maps a file is that whole file. -/
def Storable (c : LLDiskCache) (value : Blob) : Prop :=
  match value.mappedFile, c.db.casByDigest (sha value.stream) with
  | none, none => value.nullData = false
  | none, some e => e.storage = .inDb ∧ e.value ≠ none
  | some path, none => blobFiles path = some value.data
  | some path, some e => e.storage = .blobFile ∧ blobFiles path = some value.data

/-- `find` returns a blob with the bytes of the value. -/
def Finds (c : LLDiskCache) (key : Key) (value : Blob) : Prop :=
  ∃ entry b, (c.find blobFiles key).2 = .ok (some entry) ∧ entry.value = some b
    ∧ b.data = value.data

end Values

variable {sha : Bytes → Digest} {env : Env}

theorem labelled_valueRow {casId : ℤ} {value : Blob} {n : ℕ} :
    Labelled sha (valueRow casId (sha value.stream) value n) := by
  cases hm : value.mappedFile with
  | some path =>
      simp only [valueRow, hm, Labelled]
      exact ⟨path, by simp [Blob.stream, hm], rfl⟩
  | none =>
      simp only [valueRow, hm, Labelled]
      exact ⟨value, hm, rfl, rfl⟩

theorem writes_of_contract (h : c.Rows (Labelled sha)) {op : Op} (hop : c.Contract sha op) :
    c.Writes (Labelled sha) op := by
  cases op with
  | insert now key digest value originalSize =>
      obtain rfl : digest = sha value.stream := hop
      exact fun casId => labelled_valueRow
  | initiateInsert now key digest => exact fun casId => rfl
  | finishInsert casId size originalSize =>
      intro e he hid
      have hrow := h.rows e he
      rcases hop e he hid with hX | hF
      · simpa [Labelled, finishRow, hX] using hrow
      · simpa [Labelled, finishRow, hF] using hrow
  | find | lookUpAcId | removeEntry | clear | flushAcUsage | reset | restart => trivial

/-- The states of the runs whose calls keep the contract. -/
abbrev ReachableByContract (sha : Bytes → Digest) (env : Env) : LLDiskCache → Prop :=
  Transition.Reachable (fun c op => some (step env c op)) (Contract sha)
    (Set.range (construct env.sharedCacheDir fun _ => {}))

theorem rows_of_reachable (h : ReachableByContract sha env c) :
    c.Sound ∧ c.Rows (Labelled sha) := by
  refine h.invariant (I := fun c => c.Sound ∧ c.Rows (Labelled sha)) ?_ ?_
  · rintro _ ⟨config, rfl⟩
    exact ⟨Sound.initializeCache (fun _ => .empty) rfl _ config,
      Rows.initializeCache (fun _ => .empty) rfl (fun _ e he => absurd he (Table.not_mem_empty e))
        _ config⟩
  · rintro c _ op ⟨hs, hr⟩ hop ⟨⟩
    exact ⟨hs.step env op, hr.step hs env (writes_of_contract hr hop)⟩

/-- The row of a value is found with its bytes. -/
def RowFinds (blobFiles : Bytes → Option Bytes) (value : Blob) (e : CasRow) : Prop :=
  match value.mappedFile with
  | none => e.storage = .inDb ∧ e.value ≠ none
  | some path => e.storage = .blobFile ∧ blobFiles path = some value.data

/-- `find` returns the bytes of the value exactly if its row holds them. -/
theorem finds_iff_rowFinds (hsha : Function.Injective sha) (hi : c.db.Integral) {key : Key}
    {value : Blob} {e : CasRow} (he : c.db.Holds key e) (hrow : Labelled sha e)
    (hdigest : e.digest = sha value.stream) :
    c.Finds env.blobFiles key value ↔ RowFinds env.blobFiles value e := by
  have hlook : c.lookUpInternalCasEntry e.casId = .ok e := by
    simp [lookUpInternalCasEntry, Table.find?_eq_some.mpr ⟨he.1, rfl⟩]
  have hfind := LocalDiskCache.find_of_holds hi he env.blobFiles
  simp only [lookUpCasEntry, hlook] at hfind
  rw [Finds, hfind, RowFinds]
  rw [Labelled] at hrow
  -- the stream of the value is known from the digest
  have hstream : ∀ bytes, e.digest = sha bytes → value.stream = bytes := fun bytes hb =>
    hsha (hdigest.symm.trans hb)
  cases hstorage : e.storage with
  | invalid => cases value.mappedFile <;> simp
  | inFile =>
      rw [hstorage] at hrow
      cases value.mappedFile <;> simp [hrow]
  | inDb =>
      rw [hstorage] at hrow
      obtain ⟨stored, hm, hd, hvalue⟩ := hrow
      have hsame := hstream _ hd
      cases hmv : value.mappedFile with
      | some path => simp [Blob.stream, hm, hmv] at hsame
      | none =>
          have hdata : stored.data = value.data := by
            simpa [Blob.stream, hm, hmv] using hsame.symm
          cases hnull : stored.nullData <;> simp [hvalue, hnull, hdata]
  | blobFile =>
      rw [hstorage] at hrow
      obtain ⟨path, hd, hvalue⟩ := hrow
      have hsame := hstream _ hd
      cases hmv : value.mappedFile with
      | none => simp [Blob.stream, hmv] at hsame
      | some path' =>
          obtain rfl : path' = path := by simpa [Blob.stream, hmv] using hsame
          cases hfile : env.blobFiles path' <;> simp [hvalue, hfile]

/-- The row of a key that is still there after its insertion. -/
theorem exists_row_insert (hs : c.Sound) (hr : c.Rows (Labelled sha)) {key : Key}
    (hkey : c.db.acByKey key = none) (now : ℕ) (value : Blob) (originalSize : Option ℕ)
    (hthere : (c.insert now key (sha value.stream) value originalSize).1.db.acByKey key ≠ none) :
    ∃ e, (c.insert now key (sha value.stream) value originalSize).1.db.Holds key e
      ∧ e.digest = sha value.stream ∧ Labelled sha e
      ∧ (RowFinds env.blobFiles value e ↔ c.Storable sha env.blobFiles value) := by
  have hkeep : ∀ {c' : LLDiskCache} {e : CasRow} {n : ℕ}, c'.db.Integral → c'.db.Holds key e →
      (c'.recordCacheGrowth n).db.acByKey key ≠ none →
      (c'.recordCacheGrowth n).db.Holds key e := by
    intro c' e n hi he hne
    obtain ⟨d, m, hev, heq⟩ := recordCacheGrowth_evicts hi n
    rw [heq] at hne ⊢
    exact hev.holds hi he hne
  rcases c.insert_cases now key (sha value.stream) value originalSize with
    ⟨a, ids, hsome, -⟩ | ⟨e, -, hdigest, heq⟩ | ⟨-, hdigest, heq⟩
  · rw [hkey] at hsome
    cases hsome
  · rw [heq] at hthere ⊢
    obtain ⟨he, hed⟩ := Db.mem_of_casByDigest hdigest
    refine ⟨e, hkeep (integral_addAc hs.integral hkey he) (holds_addAc_self he now key) hthere,
      hed, hr.rows e he, ?_⟩
    rw [RowFinds, Storable, hdigest]
    cases value.mappedFile <;> rfl
  · rw [heq] at hthere ⊢
    have hid := valueRow_casId c.db.newCasId (sha value.stream) value
      (originalSize.getD value.size)
    refine ⟨_, hkeep (integral_addBoth hs.integral hkey hid (by simpa using hdigest))
      (holds_addBoth_self hid now key) hthere, valueRow_digest _ _ _ _, labelled_valueRow, ?_⟩
    rw [RowFinds, Storable, hdigest]
    cases hm : value.mappedFile <;> simp [valueRow, hm]

theorem finds_insert_of_rows (hsha : Function.Injective sha) (hs : c.Sound)
    (hr : c.Rows (Labelled sha)) {key : Key} (hkey : c.db.acByKey key = none) (now : ℕ)
    (value : Blob) (originalSize : Option ℕ) :
    (c.insert now key (sha value.stream) value originalSize).1.Finds env.blobFiles key value
      ↔ c.Fits now (sha value.stream) value ∧ c.Storable sha env.blobFiles value := by
  have hfits := acByKey_insert_iff hs hkey now (sha value.stream) value originalSize
  by_cases hthere :
      (c.insert now key (sha value.stream) value originalSize).1.db.acByKey key = none
  · have hmiss := find_of_absent hthere env.blobFiles
    refine ⟨?_, fun h => absurd hthere (hfits.mpr h.1)⟩
    rintro ⟨entry, b, hfound, -⟩
    simp [hmiss] at hfound
  · obtain ⟨e, he, hdigest, hrow, hiff⟩ := exists_row_insert hs hr hkey now value originalSize
      hthere
    have hi := (hs.insert now key (sha value.stream) value originalSize).integral
    rw [finds_iff_rowFinds hsha hi he hrow hdigest, hiff]
    exact ⟨fun h => ⟨hfits.mp hthere, h⟩, And.right⟩

/-- **Insert and find**: a value that is inserted under a new key is found again exactly if
the size limit lets it stay and its row holds its bytes. -/
theorem finds_insert_iff (hsha : Function.Injective sha) (h : ReachableByContract sha env c)
    {key : Key} (hkey : c.db.acByKey key = none) (now : ℕ) (value : Blob)
    (originalSize : Option ℕ) :
    (c.insert now key (sha value.stream) value originalSize).1.Finds env.blobFiles key value
      ↔ c.Fits now (sha value.stream) value ∧ c.Storable sha env.blobFiles value := by
  obtain ⟨hs, hr⟩ := rows_of_reachable h
  exact finds_insert_of_rows hsha hs hr hkey now value originalSize

/-- An environment with one blob file of three bytes. -/
def oneFile : Env where
  sharedCacheDir := []
  blobFiles path := if path = [0x70] then some [1, 2, 3] else none

/-- A blob that maps the whole file, under a second key. -/
theorem finds_insert_wholeFile :
    let c := step oneFile (construct [] (fun _ => {}) {})
      (.insert 1 [0] (id (Blob.ofFile [1, 2, 3] (some [0x70])).stream)
        (.ofFile [1, 2, 3] (some [0x70])) none)
    (c.insert 2 [1] (id (Blob.ofFile [1, 2, 3] (some [0x70])).stream)
        (.ofFile [1, 2, 3] (some [0x70])) none).1.Finds oneFile.blobFiles [1]
      (.ofFile [1, 2, 3] (some [0x70])) := by
  intro c
  have hreach : ReachableByContract id oneFile c :=
    .step (.start ⟨{}, rfl⟩) (by exact rfl) rfl
  refine (finds_insert_iff Function.injective_id hreach ?_ 2 _ none).mpr ⟨?_, ?_⟩
  · decide
  · decide
  · exact ⟨rfl, rfl⟩

/-- The middle byte of the file is not found: `find` returns all three. -/
theorem not_finds_insert_subRange :
    ¬ ∀ (sha : Bytes → Digest), Function.Injective sha → ∀ (env : Env) (c : LLDiskCache),
      ReachableByContract sha env c → ∀ (key : Key), c.db.acByKey key = none → ∀ (value : Blob),
        (∀ path, value.mappedFile = some path →
          ∃ data, env.blobFiles path = some data ∧ value.data <:+: data) →
        ∀ now originalSize, (c.insert now key (sha value.stream) value originalSize).1.Finds
          env.blobFiles key value := by
  intro h
  have hreach : ReachableByContract id oneFile (construct [] (fun _ => {}) {}) := .start ⟨{}, rfl⟩
  obtain ⟨hs, hr⟩ := rows_of_reachable hreach
  have hfound := h id Function.injective_id oneFile _ hreach [0] (by decide) (.ofFile [2] (some [0x70])) ?_ 1 none
  · have hstorable := ((finds_insert_of_rows Function.injective_id hs hr (by decide) 1 _ none).mp
      hfound).2
    have hfile : oneFile.blobFiles [0x70] = some [2] := hstorable
    revert hfile
    decide
  · rintro path ⟨⟩
    exact ⟨[1, 2, 3], rfl, [1], [3], rfl⟩

end LLDiskCache
end Cradle.Disk
