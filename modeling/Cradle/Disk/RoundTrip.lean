import Cradle.Disk.LocalDiskCache

/-!
# Reading back what was written

Every row says how its value was stored, and a file holds the compressed value of its
row.  A key keeps its row until it is evicted.  Together this tells what `read` returns
after `write`: the value, if its row is in state 'D' and not `NULL`, or in state 'F' and
files are not checked.
-/

namespace Cradle.Disk

open Directory WriterSystem

/-! ## The row of a key -/

/-- `e` is the CAS row of the action with the given key. -/
def Db.Holds (db : Db) (key : Key) (e : CasRow) : Prop :=
  e ∈ db.cas ∧ ∃ a ∈ db.actions, a.key = key ∧ a.casId = e.casId

theorem Db.acByKey_of_mem {db : Db} (h : db.Integral) {a : AcRow} (ha : a ∈ db.actions) :
    db.acByKey a.key = some a := by
  cases hkey : db.acByKey a.key with
  | none => exact absurd rfl (Db.acByKey_eq_none.mp hkey a ha)
  | some b =>
      obtain ⟨hb, heq⟩ := Db.mem_of_acByKey hkey
      rw [h.keys b hb a ha heq]

theorem Directory.Evicts.actions_subset {d d' : Directory} (h : Evicts d d') :
    ∀ a ∈ d'.db.actions, a ∈ d.db.actions := by
  induction h with
  | refl => exact fun _ h => h
  | shared _ _ _ _ _ ih => exact fun a ha => (Table.mem_erase.mp (ih a ha)).1
  | last _ _ _ _ _ ih => exact fun a ha => (Table.mem_erase.mp (ih a ha)).1

/-- A key that is not evicted keeps its row. -/
theorem Directory.Evicts.holds {d d' : Directory} (h : Evicts d d') (hi : d.db.Integral)
    {key : Key} {e : CasRow} (he : d.db.Holds key e) (hkey : d'.db.acByKey key ≠ none) :
    d'.db.Holds key e := by
  obtain ⟨hmem, a, ha, hak, hid⟩ := he
  obtain ⟨b, hb⟩ := Option.ne_none_iff_exists'.mp hkey
  obtain ⟨hb, hbk⟩ := Db.mem_of_acByKey hb
  -- the action that is left is the same one, and so is the row it refers to
  obtain rfl := hi.keys b (h.actions_subset b hb) a ha (hbk.trans hak.symm)
  obtain ⟨x, hx, hxid⟩ := (h.integral hi).refers b hb
  obtain rfl := Table.eq_of_key_eq ((shrinks_of_evicts h).rows x hx) hmem (hxid.trans hid)
  exact ⟨hx, b, hb, hbk, hid⟩

/-- A row that is not evicted keeps its file. -/
theorem Directory.Evicts.files_eq {d d' : Directory} (h : Evicts d d') (hi : d.db.Integral) :
    ∀ e ∈ d'.db.cas, d'.files e.digest = d.files e.digest := by
  induction h with
  | refl => exact fun _ _ => rfl
  | shared ha hb hne hid _ ih => exact ih (integral_dropAc hi ha hb hne hid)
  | @last d d' a e ha he hid hlast rest ih =>
      intro x hx
      rw [ih (integral_dropBoth hi ha hid hlast) x hx]
      obtain ⟨hx, hne⟩ := Table.mem_erase.mp ((shrinks_of_evicts rest).rows x hx)
      by_cases hF : e.storage = .inFile
      · simp only [dropBoth, hF, if_true]
        refine Function.update_of_ne (fun heq => hne ?_) _ _
        rw [hi.digests x hx e he heq]
      · simp only [dropBoth, hF, if_false]

/-! ## How values are stored -/

/-- How the value of a row is stored, according to its state. -/
def CasRow.Stored (env : LocalEnv) (files : Digest → Option Bytes) (e : CasRow) : Prop :=
  match e.storage with
  | .inDb => ∃ value : Blob, value.mappedFile = none ∧ e.digest = env.sha value.stream
      ∧ e.value = if value.nullData then none else some value.data
  | .inFile => e.value = none ∧ ∃ data stored, e.digest = env.sha (0x00 :: data)
      ∧ env.lz4.compressed data = some stored ∧ files e.digest = some stored
      ∧ e.originalSize = some data.length
  | .blobFile => ∃ path, e.digest = env.sha (0x01 :: path)
  | .invalid => True

/-- Every row is stored as its state says, and every file was written for a large value. -/
structure Directory.Stored (env : LocalEnv) (d : Directory) : Prop where
  rows : ∀ e ∈ d.db.cas, e.Stored env d.files
  files : ∀ g, d.files g ≠ none → ∃ data : Bytes, 1024 < data.length ∧ g = env.sha (0x00 :: data)

variable {env : LocalEnv}

theorem CasRow.Stored.congr {files files' : Digest → Option Bytes} {e : CasRow}
    (h : e.Stored env files) (hfile : files' e.digest = files e.digest) : e.Stored env files' := by
  rw [CasRow.Stored] at h ⊢
  rwa [hfile]

namespace Directory.Stored

variable {d d' : Directory}

theorem empty : Stored env {} where
  rows e he := absurd he (Table.not_mem_empty e)
  files _ hg := absurd rfl hg

/-- Fewer rows, each with its file. -/
theorem subset (h : Stored env d) (hrows : ∀ e ∈ d'.db.cas, e ∈ d.db.cas)
    (hfiles : ∀ e ∈ d'.db.cas, d'.files e.digest = d.files e.digest)
    (hleft : ∀ g, d'.files g ≠ none → d.files g ≠ none) : Stored env d' where
  rows e he := (h.rows e (hrows e he)).congr (hfiles e he)
  files g hg := h.files g (hleft g hg)

theorem evicts (h : Stored env d) (hi : d.db.Integral) (hev : Evicts d d') : Stored env d' :=
  h.subset (shrinks_of_evicts hev).rows (hev.files_eq hi)
    fun g hg => ((shrinks_of_evicts hev).files g hg).1

/-- The same rows and files. -/
theorem congr (h : Stored env d) (hcas : d'.db.cas = d.db.cas) (hfiles : d'.files = d.files) :
    Stored env d' := by
  refine h.subset (fun e he => ?_) (fun e _ => by rw [hfiles]) fun g hg => ?_
  · rwa [hcas] at he
  · rwa [hfiles] at hg

/-- A new row, with the file that was written for it, if any. -/
theorem addRow {c : LLDiskCache} (h : Stored env c.store) {e : CasRow} {ac : AcRow}
    {files : Digest → Option Bytes} (hid : e.casId = c.db.newCasId)
    (hdigest : c.db.casByDigest e.digest = none) (he : e.Stored env files)
    (hother : ∀ g, g ≠ e.digest → files g = c.files g)
    (hown : files e.digest ≠ none →
      ∃ data : Bytes, 1024 < data.length ∧ e.digest = env.sha (0x00 :: data)) :
    Stored env { (c.addBoth e ac).store with files } where
  rows x hx := by
    have hnew : ¬ c.db.cas.Has e.casId := by
      rw [hid]
      exact Db.not_has_newCasId _
    rcases (Table.mem_insert hnew).mp hx with hx | rfl
    · exact (h.rows x hx).congr (hother _ (Db.casByDigest_eq_none.mp hdigest x hx))
    · exact he
  files g hg := by
    by_cases heq : g = e.digest
    · rw [heq] at hg ⊢
      exact hown hg
    · have hold : files g ≠ none := hg
      rw [hother g heq] at hold
      exact h.files g hold

end Directory.Stored

/-! ## The effect of a call -/

/-- `d'` has what `d` has, and perhaps a new action or row. -/
structure Grows (env : LocalEnv) (d d' : Directory) : Prop where
  integral : d'.db.Integral
  stored : d'.Stored env
  holds : ∀ key e, d.db.Holds key e → d'.db.Holds key e

namespace LLDiskCache

variable {c : LLDiskCache}

theorem holds_addAc {key : Key} {e : CasRow} (h : c.db.Holds key e) (now : ℕ) (k : Key) (i : ℤ) :
    (c.addAc (c.newAction now k i)).db.Holds key e := by
  obtain ⟨he, a, ha, hrest⟩ := h
  exact ⟨he, a, (Table.mem_insert (Db.not_has_newAcId _)).mpr (.inl ha), hrest⟩

theorem holds_addAc_self {e : CasRow} (he : e ∈ c.db.cas) (now : ℕ) (key : Key) :
    (c.addAc (c.newAction now key e.casId)).db.Holds key e :=
  ⟨he, _, (Table.mem_insert (Db.not_has_newAcId _)).mpr (.inr rfl), rfl, rfl⟩

theorem grows_addAc (hi : c.db.Integral) (hs : c.store.Stored env) {now : ℕ} {key : Key}
    {e : CasRow} (hkey : c.db.acByKey key = none) (he : e ∈ c.db.cas) :
    Grows env c.store (c.addAc (c.newAction now key e.casId)).store where
  integral := integral_addAc hi hkey he
  stored := hs.congr rfl rfl
  holds _ _ h := holds_addAc h now key e.casId

section
variable {e : CasRow} (hid : e.casId = c.db.newCasId) (now : ℕ) (key : Key)

include hid

theorem not_has_casId : ¬ c.db.cas.Has e.casId := by
  rw [hid]
  exact Db.not_has_newCasId _

theorem holds_addBoth {k : Key} {x : CasRow} (h : c.db.Holds k x) :
    (c.addBoth e (c.newAction now key c.db.newCasId)).db.Holds k x := by
  obtain ⟨hx, a, ha, hrest⟩ := h
  exact ⟨(Table.mem_insert (not_has_casId hid)).mpr (.inl hx), a,
    (Table.mem_insert (Db.not_has_newAcId _)).mpr (.inl ha), hrest⟩

theorem holds_addBoth_self : (c.addBoth e (c.newAction now key c.db.newCasId)).db.Holds key e :=
  ⟨(Table.mem_insert (not_has_casId hid)).mpr (.inr rfl), _,
    (Table.mem_insert (Db.not_has_newAcId _)).mpr (.inr rfl), rfl, hid.symm⟩

end

theorem grows_addBoth (hi : c.db.Integral) (hs : c.store.Stored env) {now : ℕ} {key : Key}
    {e : CasRow} {files : Digest → Option Bytes} (hkey : c.db.acByKey key = none)
    (hid : e.casId = c.db.newCasId) (hdigest : c.db.casByDigest e.digest = none)
    (he : e.Stored env files) (hother : ∀ g, g ≠ e.digest → files g = c.files g)
    (hown : files e.digest ≠ none →
      ∃ data : Bytes, 1024 < data.length ∧ e.digest = env.sha (0x00 :: data)) :
    Grows env c.store
      { (c.addBoth e (c.newAction now key c.db.newCasId)).store with files } where
  integral := integral_addBoth hi hkey hid hdigest
  stored := hs.addRow hid hdigest he hother hown
  holds _ _ h := holds_addBoth hid now key h

/-- `c'` comes from `c` by growth to a state with `P` and evictions. -/
structure Advances (env : LocalEnv) (P : Db → Prop) (c c' : LLDiskCache) : Prop where
  sound : c'.Sound
  grown : ∃ d, Grows env c.store d ∧ P d.db ∧ Evicts d c'.store
  others : c'.otherDirs = c.otherDirs

theorem Advances.mono {P Q : Db → Prop} {c' : LLDiskCache} (h : Advances env P c c')
    (hPQ : ∀ db, P db → Q db) : Advances env Q c c' := by
  obtain ⟨d, hgrows, hP, hev⟩ := h.grown
  exact ⟨h.sound, ⟨d, hgrows, hPQ _ hP, hev⟩, h.others⟩

theorem grows_refl {d : Directory} (hi : d.db.Integral) (hs : d.Stored env) : Grows env d d :=
  ⟨hi, hs, fun _ _ h => h⟩

/-- Evictions alone. -/
theorem advances_of_evicts (h : c.Sound) (hs : c.store.Stored env) {c' : LLDiskCache}
    (hsound : c'.Sound) (hev : Evicts c.store c'.store) (hothers : c'.otherDirs = c.otherDirs) :
    Advances env (fun _ => True) c c' :=
  ⟨hsound, ⟨c.store, grows_refl h.integral hs, trivial, hev⟩, hothers⟩

/-- Growth, then perhaps a sweep. -/
theorem advances_recordCacheGrowth {P : Db → Prop} {c₁ : LLDiskCache} {size : ℕ}
    (hsound : (c₁.recordCacheGrowth size).Sound) (hgrows : Grows env c.store c₁.store)
    (hP : P c₁.db) (hothers : c₁.otherDirs = c.otherDirs) :
    Advances env P c (c₁.recordCacheGrowth size) := by
  obtain ⟨d, n, hev, heq⟩ := recordCacheGrowth_evicts hgrows.integral size
  refine ⟨hsound, ⟨c₁.store, hgrows, hP, ?_⟩, ?_⟩
  · rw [heq]
    exact hev
  · rw [heq]
    exact hothers

theorem stored_valueRow {casId : ℤ} {value : Blob} {n : ℕ} {files : Digest → Option Bytes} :
    (valueRow casId (env.sha value.stream) value n).Stored env files := by
  cases hm : value.mappedFile with
  | some path =>
      simp only [valueRow, hm, CasRow.Stored]
      exact ⟨path, by simp [Blob.stream, hm]⟩
  | none =>
      simp only [valueRow, hm, CasRow.Stored]
      exact ⟨value, hm, rfl, rfl⟩

/-- The row that `insert` gives to a new key. -/
def InsertedRow (env : LocalEnv) (c : LLDiskCache) (value : Blob) (e : CasRow) : Prop :=
  c.db.casByDigest (env.sha value.stream) = some e
    ∨ c.db.casByDigest (env.sha value.stream) = none
      ∧ e = valueRow c.db.newCasId (env.sha value.stream) value value.size

/-- `insert` of a value under its digest. -/
theorem advances_insert (h : c.Sound) (hs : c.store.Stored env) (now : ℕ) (key : Key)
    (value : Blob) :
    Advances env (fun db => c.db.acByKey key = none →
        ∃ e, db.Holds key e ∧ InsertedRow env c value e)
      c (c.insert now key (env.sha value.stream) value none).1 := by
  have hsound := h.insert now key (env.sha value.stream) value none
  rcases c.insert_cases now key (env.sha value.stream) value none with
    ⟨a, ids, hkey, heq⟩ | ⟨e, hkey, hdigest, heq⟩ | ⟨hkey, hdigest, heq⟩
  · rw [heq] at hsound ⊢
    exact (advances_of_evicts h hs hsound (.refl _) rfl).mono fun db _ hnone => by simp_all
  · rw [heq] at hsound ⊢
    have he := (Db.mem_of_casByDigest hdigest).1
    exact advances_recordCacheGrowth hsound (grows_addAc h.integral hs hkey he)
      (fun _ => ⟨e, holds_addAc_self he now key, .inl hdigest⟩) rfl
  · rw [heq] at hsound ⊢
    have hid := valueRow_casId c.db.newCasId (env.sha value.stream) value value.size
    refine advances_recordCacheGrowth hsound ?_
      (fun _ => ⟨_, holds_addBoth_self hid now key, .inr ⟨hdigest, rfl⟩⟩) rfl
    refine grows_addBoth h.integral hs hkey hid (by simpa using hdigest) stored_valueRow
      (fun _ _ => rfl) fun hown => ?_
    exact hs.files _ hown

/-- Finishing a row right after it was created. -/
theorem finishCasInsert_addBoth {e : CasRow} (hid : e.casId = c.db.newCasId) (ac : AcRow)
    (files : Digest → Option Bytes) (size originalSize : ℕ) :
    { c.addBoth e ac with files }.finishCasInsert c.db.newCasId size originalSize
      = { c.addBoth (finishRow size originalSize e) ac with files } := by
  have hmod : (c.db.cas.insert e).modify c.db.newCasId (finishRow size originalSize)
      (finishRow_casId _ _) = c.db.cas.insert (finishRow size originalSize e) := by
    rw [← hid]
    exact Table.modify_insert (not_has_casId hid)
  simp only [finishCasInsert, addBoth, hmod]

end LLDiskCache

namespace LocalDiskCache

open LLDiskCache

variable {c : LocalDiskCache}

/-- `read` accepts the row: it has its value, or a file that is not checked. -/
def Readable (checkFileData : Bool) (e : CasRow) : Prop :=
  e.storage = .inDb ∧ e.value ≠ none ∨ e.storage = .inFile ∧ checkFileData = false

/-- The value can be stored so that `read` accepts it.  A value whose digest is known is
not stored again. -/
def Restorable (env : LocalEnv) (c : LocalDiskCache) (value : Blob) : Prop :=
  match c.ll.db.casByDigest (env.sha value.stream) with
  | some e => Readable c.checkFileData e
  | none =>
      if value.size ≤ 1024 then value.nullData = false
      else value.size ≤ Lz4.maxInputSize ∧ c.checkFileData = false

instance (checkFileData : Bool) (e : CasRow) : Decidable (Readable checkFileData e) :=
  inferInstanceAs (Decidable (_ ∨ _))

instance (c : LocalDiskCache) (value : Blob) : Decidable (Restorable env c value) :=
  match h : c.ll.db.casByDigest (env.sha value.stream) with
  | some e => decidable_of_iff (Readable c.checkFileData e) (by simp [Restorable, h])
  | none =>
      decidable_of_iff (if value.size ≤ 1024 then value.nullData = false
        else value.size ≤ Lz4.maxInputSize ∧ c.checkFileData = false) (by simp [Restorable, h])

/-- The row that `write` gives to a new key. -/
def WrittenRow (env : LocalEnv) (c : LocalDiskCache) (value : Blob) (e : CasRow) : Prop :=
  e.digest = env.sha value.stream ∧ (Readable c.checkFileData e ↔ Restorable env c value)

theorem writtenRow_of_known {value : Blob} {e : CasRow}
    (h : c.ll.db.casByDigest (env.sha value.stream) = some e) : WrittenRow env c value e :=
  ⟨(Db.mem_of_casByDigest h).2, by simp [Restorable, h]⟩

theorem writtenRow_of_inserted {value : Blob} {e : CasRow} (hm : value.mappedFile = none)
    (hsize : value.size ≤ 1024) (h : InsertedRow env c.ll value e) : WrittenRow env c value e := by
  rcases h with hknown | ⟨hnew, rfl⟩
  · exact writtenRow_of_known hknown
  · refine ⟨valueRow_digest _ _ _ _, ?_⟩
    simp [Readable, Restorable, hnew, hsize, valueRow, hm]

/-- `write` of a large value. -/
theorem advances_write_large (hl : env.lz4.Lawful) (h : c.ll.Sound) (hs : c.ll.store.Stored env)
    (now : ℕ) (key : Key) {value : Blob} (hm : value.mappedFile = none)
    (hsize : 1024 < value.size) :
    Advances env (fun db => c.ll.db.acByKey key = none →
        ∃ e, db.Holds key e ∧ WrittenRow env c value e)
      c.ll (c.write env now key value).ll := by
  have hsound := h.initiateInsert now key (env.sha value.stream)
  have hstream : value.stream = 0x00 :: value.data := by simp [Blob.stream, hm]
  rcases c.ll.initiateInsert_cases now key (env.sha value.stream) with
    ⟨a, ids, hkey, heq⟩ | ⟨e, hkey, hdigest, heq⟩ | ⟨hkey, hdigest, heq⟩
  · rw [heq] at hsound
    simp only [write, hsize, hm, and_self, if_true, heq]
    exact (advances_of_evicts h hs hsound (.refl _) rfl).mono fun db _ hnone => by simp_all
  · rw [heq] at hsound
    have he := (Db.mem_of_casByDigest hdigest).1
    simp only [write, hsize, hm, and_self, if_true, heq]
    exact ⟨hsound, ⟨_, grows_addAc h.integral hs hkey he,
      fun _ => ⟨e, holds_addAc_self he now key, writtenRow_of_known hdigest⟩, .refl _⟩, rfl⟩
  · rw [heq] at hsound
    simp only [write, hsize, hm, and_self, if_true, heq]
    have hnle : ¬ value.size ≤ 1024 := by omega
    have hbound := Lz4.compressed_isSome hl value.data
    cases hz : env.lz4.compressed value.data with
    | none =>
        -- the row stays in state 'X'
        have hbig : ¬ value.size ≤ Lz4.maxInputSize := by simpa [hz, Blob.size] using hbound
        refine ⟨hsound, ⟨_, ?_, fun _ => ⟨_, holds_addBoth_self rfl now key, rfl, ?_⟩,
          .refl _⟩, rfl⟩
        · exact grows_addBoth h.integral hs hkey rfl hdigest trivial (fun _ _ => rfl)
            fun hown => hs.files _ hown
        · simp [Readable, Restorable, hdigest, hnle, hbig]
    | some compressed =>
        have hfits : value.size ≤ Lz4.maxInputSize := by simpa [hz, Blob.size] using hbound
        dsimp only
        rw [finishInsert, finishCasInsert_addBoth rfl]
        refine advances_recordCacheGrowth ?_ ?_
          (fun _ => ⟨_, holds_addBoth_self rfl now key, rfl, ?_⟩) rfl
        · refine Sound.recordCacheGrowth ?_ _
          exact ⟨integral_addBoth h.integral hkey rfl hdigest, hsound.others, hsound.log⟩
        · refine grows_addBoth h.integral hs hkey rfl hdigest ?_
            (fun g hg => Function.update_of_ne hg _ _) fun _ => ⟨value.data, hsize, ?_⟩
          · refine ⟨rfl, value.data, compressed, ?_, hz, ?_, rfl⟩
            · rw [← hstream]
              rfl
            · exact Function.update_self _ _ _
          · rw [← hstream]
            rfl
        · simp [Readable, Restorable, hdigest, hnle, hfits, finishRow]

theorem advances_write (hl : env.lz4.Lawful) (h : c.ll.Sound) (hs : c.ll.store.Stored env)
    (now : ℕ) (key : Key) (value : Blob) :
    Advances env (fun db => c.ll.db.acByKey key = none → value.mappedFile = none →
        ∃ e, db.Holds key e ∧ WrittenRow env c value e)
      c.ll (c.write env now key value).ll := by
  by_cases hfile : 1024 < value.size ∧ value.mappedFile = none
  · exact (advances_write_large hl h hs now key hfile.2 hfile.1).mono fun db hdb hkey _ => hdb hkey
  · have hwrite : (c.write env now key value).ll
        = (c.ll.insert now key (env.sha value.stream) value none).1 := by
      simp only [write, hfile, if_false]
    rw [hwrite]
    refine (advances_insert h hs now key value).mono fun db hdb hkey hm => ?_
    obtain ⟨e, he, hrow⟩ := hdb hkey
    have hsize : value.size ≤ 1024 := by
      by_contra hlt
      exact hfile ⟨by omega, hm⟩
    exact ⟨e, he, writtenRow_of_inserted hm hsize hrow⟩

theorem advances_find (h : c.ll.Sound) (hs : c.ll.store.Stored env) (key : Key) :
    Advances env (fun _ => True) c.ll (c.ll.find env.blobFiles key).1 := by
  have hsound := h.find env.blobFiles key
  obtain ⟨ids, hits, misses, heq⟩ := c.ll.find_eq env.blobFiles key
  rw [heq] at hsound ⊢
  exact advances_of_evicts h hs hsound (.refl _) rfl

theorem read_ll (c : LocalDiskCache) (key : Key) :
    (c.read env key).1.ll = (c.ll.find env.blobFiles key).1 := by
  rw [read]
  split <;> simp_all

theorem readRawValue_ll (c : LocalDiskCache) (key : Key) :
    (c.readRawValue env key).1.ll = (c.ll.find env.blobFiles key).1 := by
  rw [readRawValue]
  split <;> simp_all

/-- Recording the use of an action changes no key and no reference. -/
theorem grows_recordAcUsage {ll : LLDiskCache} (hi : ll.db.Integral) (hs : ll.store.Stored env)
    (now : ℕ) (acId : ℤ) : Grows env ll.store (ll.recordAcUsage now acId).store where
  integral := hi.updateAc acId (by intro; rfl) (by intro; rfl) (by intro; rfl)
  stored := hs.congr rfl rfl
  holds key e h := by
    obtain ⟨he, a, ha, hkey, hid⟩ := h
    refine ⟨he, _, (Table.mem_modify (by intro; rfl)).mpr ⟨a, ha, rfl⟩, ?_, ?_⟩
    · split <;> exact hkey
    · split <;> exact hid

theorem Grows.trans {d d₁ d₂ : Directory} (h : Grows env d d₁) (h' : Grows env d₁ d₂) :
    Grows env d d₂ :=
  ⟨h'.integral, h'.stored, fun key e he => h'.holds key e (h.holds key e he)⟩

theorem advances_flush (h : c.ll.Sound) (hs : c.ll.store.Stored env) (now : ℕ → ℕ)
    (forced idle : Bool) :
    Advances env (fun _ => True) c.ll (c.ll.flushAcUsage now forced idle) := by
  have hsound := h.flushAcUsage now forced idle
  have hgrown : Grows env c.ll.store (c.ll.flushAcUsage now forced idle).store
      ∧ (c.ll.flushAcUsage now forced idle).otherDirs = c.ll.otherDirs := by
    refine flushAcUsage_rule
      (P := fun ll => Grows env c.ll.store ll.store ∧ ll.otherDirs = c.ll.otherDirs)
      ⟨grows_refl h.integral hs, rfl⟩ (fun ll hll now acId => ⟨?_, hll.2⟩) (fun ll hll => hll)
      now forced idle
    exact Grows.trans hll.1 (grows_recordAcUsage hll.1.integral hll.1.stored now acId)
  exact ⟨hsound, ⟨_, hgrown.1, trivial, .refl _⟩, hgrown.2⟩

/-- Every call grows the cache, evicts from it, or does both in this order. -/
theorem advances_call (hl : env.lz4.Lawful) (h : c.ll.Sound) (hs : c.ll.store.Stored env)
    (a : Call) : Advances env (fun _ => True) c.ll (c.call env a).ll := by
  cases a with
  | write now key value => exact (advances_write hl h hs now key value).mono fun _ _ => trivial
  | writeRawValue now key value =>
      exact (advances_insert h hs now key value).mono fun _ _ => trivial
  | read key =>
      rw [call, read_ll]
      exact advances_find h hs key
  | readRawValue key =>
      rw [call, readRawValue_ll]
      exact advances_find h hs key
  | clear =>
      obtain ⟨d, hev, heq⟩ := removeAllEntries_evicts h.integral
      have hclear : (c.call env .clear).ll = c.ll.withStore d := heq
      rw [hclear]
      exact advances_of_evicts h hs (h.evicts hev) hev rfl
  | flush now forced idle => exact advances_flush h hs now forced idle

@[simp] theorem checkFileData_write (c : LocalDiskCache) (now : ℕ) (key : Key) (value : Blob) :
    (c.write env now key value).checkFileData = c.checkFileData := by
  rw [write]
  dsimp only
  split
  · split
    · split <;> rfl
    · rfl
  · rfl

theorem checkFileData_call (c : LocalDiskCache) (a : Call) :
    (c.call env a).checkFileData = c.checkFileData := by
  cases a with
  | write now key value => exact c.checkFileData_write now key value
  | writeRawValue now key value => rfl
  | read key =>
      simp only [call, read]
      split <;> rfl
  | readRawValue key =>
      simp only [call, readRawValue]
      split <;> rfl
  | clear => rfl
  | flush now forced idle => rfl

/-! ## Runs -/

/-- All directories are sound and store values as they should. -/
structure Valid (env : LocalEnv) (c : LocalDiskCache) : Prop where
  sound : c.ll.Sound
  stored : c.ll.store.Stored env
  others : ∀ d, (c.ll.otherDirs d).Stored env

theorem Valid.call (hl : env.lz4.Lawful) (h : c.Valid env) (a : Call) :
    (c.call env a).Valid env := by
  have hadv := advances_call hl h.sound h.stored a
  obtain ⟨d, hgrows, -, hev⟩ := hadv.grown
  refine ⟨hadv.sound, hgrows.stored.evicts hgrows.integral hev, fun dir => ?_⟩
  rw [hadv.others]
  exact h.others dir

theorem stored_removeInvalidEntries {ll : LLDiskCache} (h : ll.store.Stored env) :
    ll.removeInvalidEntries.store.Stored env :=
  h.subset (fun _ he => (Table.mem_filter.mp he).1) (fun _ _ => rfl) fun _ hg => hg

theorem stored_openDirectory (ll : LLDiskCache) (hs : ∀ d, (ll.otherDirs d).Stored env)
    (config : Config) : (openDirectory env.sharedCacheDir ll config).store.Stored env
      ∧ (openDirectory env.sharedCacheDir ll config).otherDirs = ll.otherDirs := by
  rw [openDirectory]
  cases config.startEmpty with
  | true =>
      refine ⟨stored_removeInvalidEntries ?_, rfl⟩
      exact Stored.empty
  | false =>
      refine ⟨stored_removeInvalidEntries ?_, rfl⟩
      exact hs _

theorem valid_construct {dirs : Bytes → Directory} (hi : ∀ d, (dirs d).db.Integral)
    (hs : ∀ d, (dirs d).Stored env) (config : Config) (checkFileData : Bool) :
    (construct env dirs config checkFileData).Valid env := by
  have hsound := Sound.openDirectory (c := { dir := [], otherDirs := dirs }) hi rfl
    env.sharedCacheDir config
  obtain ⟨hstored, hothers⟩ := stored_openDirectory { dir := [], otherDirs := dirs } hs config
  obtain ⟨d, hev, heq⟩ := enforceCacheSizeLimit_evicts hsound.integral
  have hll : (construct env dirs config checkFileData).ll = _ := heq
  refine ⟨hsound.enforceCacheSizeLimit, ?_, fun dir => ?_⟩
  · rw [hll]
    exact hstored.evicts hsound.integral hev
  · have hsame : (construct env dirs config checkFileData).ll.otherDirs = dirs := by
      rw [hll]
      exact hothers
    rw [hsame]
    exact hs dir

theorem valid_of_reachable (hl : env.lz4.Lawful) (h : Reachable env c) : c.Valid env := by
  refine h.invariant (I := Valid env) ?_ ?_
  · rintro _ ⟨p, rfl⟩
    exact valid_construct (fun _ => .empty) (fun _ => .empty) p.1 p.2
  · rintro c _ op hc - ⟨⟩
    cases op with
    | call a => exact hc.call hl a
    | restart config checkFileData =>
        refine valid_construct (fun d => hc.sound.others_update d) (fun d => ?_) config
          checkFileData
        by_cases hd : d = c.ll.dir
        · rw [hd, Function.update_self]
          exact hc.stored
        · rw [Function.update_of_ne hd]
          exact hc.others d

theorem reachable_construct (config : Config) (checkFileData : Bool) :
    Reachable env (construct env (fun _ => {}) config checkFileData) :=
  .start ⟨(config, checkFileData), rfl⟩

/-- A key that stays in the cache keeps its row, whatever calls are made. -/
theorem holds_calls (hl : env.lz4.Lawful) {key : Key} {e : CasRow} {calls : List Call}
    (h : c.Valid env) (he : c.ll.db.Holds key e)
    (hkept : Transition.Along (fun c a => some (call env c a))
      (fun c => c.ll.db.acByKey key ≠ none) c calls) :
    (calls.foldl (call env) c).Valid env ∧ (calls.foldl (call env) c).ll.db.Holds key e
      ∧ (calls.foldl (call env) c).checkFileData = c.checkFileData := by
  induction calls generalizing c with
  | nil => exact ⟨h, he, rfl⟩
  | cons a calls ih =>
      obtain ⟨d, hgrows, -, hev⟩ := (advances_call hl h.sound h.stored a).grown
      have hrest := hkept.2 _ rfl
      have hkey : (c.call env a).ll.db.acByKey key ≠ none := hrest.head
      obtain ⟨hvalid, hholds, hcheck⟩ :=
        ih (h.call hl a) (hev.holds hgrows.integral (hgrows.holds key e he) hkey) hrest
      exact ⟨hvalid, hholds, hcheck.trans (c.checkFileData_call a)⟩

/-! ## What is read -/

theorem find_of_holds {ll : LLDiskCache} (hi : ll.db.Integral) {key : Key} {e : CasRow}
    (h : ll.db.Holds key e) (blobFiles : Bytes → Option Bytes) :
    (ll.find blobFiles key).2 = ll.lookUpCasEntry blobFiles e.casId := by
  obtain ⟨he, a, ha, rfl, hid⟩ := h
  obtain ⟨ids, hlook, -⟩ := ll.lookUpAcAndCasIds_eq a.key
  have hsame : { ll with acIdsToFlush := ids }.lookUpCasEntry blobFiles a.casId
      = ll.lookUpCasEntry blobFiles e.casId := by
    rw [hid]
    rfl
  simp only [find, hlook, Db.acByKey_of_mem hi ha, Option.map_some]
  rw [hsame]
  split <;> simp_all

/-- What `read` returns for a row. -/
def readRow (env : LocalEnv) (c : LocalDiskCache) (e : CasRow) : Option Blob :=
  match e.storage with
  | .invalid => none
  | .blobFile => (env.blobFiles (e.value.getD [])).map fun data => Blob.ofFile data e.value
  | .inDb | .inFile =>
      match e.value with
      | some data => some (Blob.ofBytes data)
      | none => (c.ll.files e.digest).bind (c.decompressFileData env
          ⟨e.casId, e.digest, none, e.size.getD 0, e.originalSize.getD 0⟩)

theorem read_of_holds (hi : c.ll.db.Integral) {key : Key} {e : CasRow}
    (h : c.ll.db.Holds key e) : (c.read env key).2 = c.readRow env e := by
  have hrow : c.ll.lookUpInternalCasEntry e.casId = .ok e := by
    simp [lookUpInternalCasEntry, Table.find?_eq_some.mpr ⟨h.1, rfl⟩]
  have hfind := find_of_holds hi h env.blobFiles
  have hfiles : (c.ll.find env.blobFiles key).1.files = c.ll.files := by
    obtain ⟨ids, hits, misses, heq⟩ := c.ll.find_eq env.blobFiles key
    rw [heq]
  rw [read, readRow]
  rcases hr : c.ll.find env.blobFiles key with ⟨ll, r⟩
  rw [hr] at hfind hfiles
  simp only [lookUpCasEntry, hrow] at hfind hfiles
  subst hfind
  cases e.storage with
  | invalid => rfl
  | blobFile =>
      dsimp only
      cases env.blobFiles (e.value.getD []) <;> rfl
  | inDb =>
      dsimp only
      rw [hfiles]
      cases e.value <;> rfl
  | inFile =>
      dsimp only
      rw [hfiles]
      cases e.value <;> rfl

/-- Of a value's row, `read` returns the value if it accepts the row, and else nothing. -/
theorem read_eq_iff_readable (hsha : Function.Injective env.sha) (hl : env.lz4.Lawful)
    (h : c.Valid env) {key : Key} {e : CasRow} (he : c.ll.db.Holds key e) {data : Bytes}
    (hdigest : e.digest = env.sha (0x00 :: data)) :
    (c.read env key).2.map Blob.data = some data ↔ Readable c.checkFileData e := by
  rw [read_of_holds h.sound.integral he]
  have hstored : e.Stored env c.ll.files := h.stored.rows e he.1
  -- the stream of the value is known from the digest
  have hstream : ∀ bytes, e.digest = env.sha bytes → bytes = 0x00 :: data := fun bytes hb =>
    hsha (hb.symm.trans hdigest)
  rw [CasRow.Stored] at hstored
  cases hstorage : e.storage with
  | invalid => simp [readRow, Readable, hstorage]
  | blobFile =>
      rw [hstorage] at hstored
      obtain ⟨path, hpath⟩ := hstored
      have := hstream _ hpath
      simp at this
  | inDb =>
      rw [hstorage] at hstored
      obtain ⟨value, hm, hvalue, heq⟩ := hstored
      have hdata : value.data = data := by simpa [Blob.stream, hm] using hstream _ hvalue
      cases hnull : value.nullData with
      | false => simp [readRow, Readable, hstorage, heq, hnull, hdata]
      | true =>
          -- nothing was ever written to a file for the empty blob
          have hnone : c.ll.files e.digest = none := by
            by_contra hfile
            obtain ⟨data', hlen, hdata'⟩ := h.stored.files _ hfile
            have hsame := hstream _ hdata'
            rw [List.cons.injEq, ← hdata, value.null_empty hnull] at hsame
            simp [hsame.2] at hlen
          simp [readRow, Readable, hstorage, heq, hnull, hnone]
  | inFile =>
      rw [hstorage] at hstored
      obtain ⟨hvalue, data', stored, hdata', hz, hfile, horig⟩ := hstored
      obtain rfl : data' = data := by simpa using hstream _ hdata'
      have hback := Lz4.decompress_compressed hl hz
      -- the hash of the data without the tag is a different one
      have hmismatch : env.sha data' ≠ e.digest := by
        intro heq
        have hlen := congrArg List.length (hstream data' heq.symm)
        simp at hlen
      simp [readRow, Readable, hstorage, hvalue, hfile, horig, decompressFileData, hback, hmismatch]

theorem read_write_of_valid (hsha : Function.Injective env.sha) (hl : env.lz4.Lawful)
    (h : c.Valid env) {key : Key} (hkey : c.ll.db.acByKey key = none) {value : Blob}
    (hm : value.mappedFile = none) (now : ℕ) (calls : List Call)
    (hkept : Transition.Along (fun c a => some (call env c a))
      (fun c => c.ll.db.acByKey key ≠ none) (c.write env now key value) calls) :
    ((calls.foldl (call env) (c.write env now key value)).read env key).2.map Blob.data
      = some value.data ↔ Restorable env c value := by
  have hadv := advances_write hl h.sound h.stored now key value
  obtain ⟨d, hgrows, hnew, hev⟩ := hadv.grown
  obtain ⟨e, he, hdigest, hreadable⟩ := hnew hkey hm
  have hwritten : (c.write env now key value).Valid env := h.call hl (.write now key value)
  have hholds := hev.holds hgrows.integral he hkept.head
  obtain ⟨hvalid, hend, hcheck⟩ := holds_calls hl hwritten hholds hkept
  have hstream : e.digest = env.sha (0x00 :: value.data) := by
    rw [hdigest]
    simp [Blob.stream, hm]
  rw [read_eq_iff_readable hsha hl hvalid hend hstream, hcheck, checkFileData_write]
  exact hreadable

/-- **Write and read**: a value that is written under a new key, and whose key stays in the
cache, is read back exactly if it is restorable. -/
theorem read_write_iff_restorable (hsha : Function.Injective env.sha) (hl : env.lz4.Lawful)
    (h : Reachable env c) {key : Key} (hkey : c.ll.db.acByKey key = none) {value : Blob}
    (hm : value.mappedFile = none) (now : ℕ) (calls : List Call)
    (hkept : Transition.Along (fun c a => some (call env c a))
      (fun c => c.ll.db.acByKey key ≠ none) (c.write env now key value) calls) :
    ((calls.foldl (call env) (c.write env now key value)).read env key).2.map Blob.data
      = some value.data ↔ Restorable env c value :=
  read_write_of_valid hsha hl (valid_of_reachable hl h) hkey hm now calls hkept

/-- A library that stores its input behind one byte. -/
def storing : Lz4 where
  compressDefault src cap := if src.length + 1 ≤ cap then some (0 :: src) else none
  decompressSafe src dstCap := if src.length ≤ dstCap + 1 then some src.tail else none

theorem storing_lawful : storing.Lawful where
  succeeds src cap hmax hcap := by
    simp only [Lz4.compressBound, hmax, if_true] at hcap
    have hle : src.length + 1 ≤ cap := by omega
    simp only [storing, if_pos hle, Option.isSome_some]
  fits src cap out h := by
    simp only [storing, Option.ite_none_right_eq_some, Option.some.injEq] at h
    obtain ⟨hle, rfl⟩ := h
    simpa using hle
  inverts src cap out dstCap h hle := by
    simp only [storing, Option.ite_none_right_eq_some, Option.some.injEq] at h
    obtain ⟨-, rfl⟩ := h
    simp [storing, hle]

/-- An environment without blob files, and with the stream itself as its digest. -/
def plainEnv : LocalEnv where
  sharedCacheDir := []
  blobFiles _ := none
  sha := id
  lz4 := storing

theorem read_write_small :
    (([.write 2 [1] (.ofBytes [4]), .read [1]].foldl (call plainEnv)
        ((construct plainEnv (fun _ => {}) {} true).write plainEnv 1 [0] (.ofBytes [1, 2, 3]))).read
          plainEnv [0]).2.map Blob.data = some [1, 2, 3] := by
  refine (read_write_iff_restorable (c := construct plainEnv (fun _ => {}) {} true)
    Function.injective_id storing_lawful (reachable_construct {} true) ?_ ?_ 1
    [.write 2 [1] (.ofBytes [4]), .read [1]] ?_).mpr ?_
  · decide
  · decide
  · decide
  · decide

/-- A value of 1025 bytes. -/
def largeValue : Blob := .ofBytes (List.replicate 1025 7)

/-- With `check_file_data` a large value is not read back. -/
theorem not_read_write_largeValue :
    ¬ ∀ c, Reachable plainEnv c → ∀ key, c.ll.db.acByKey key = none → ∀ value : Blob,
      value.mappedFile = none → ∀ now, (c.write plainEnv now key value).ll.db.acByKey key ≠ none →
        ((c.write plainEnv now key value).read plainEnv key).2.map Blob.data = some value.data := by
  intro h
  let c := construct plainEnv (fun _ => {}) {} true
  have hc : Reachable plainEnv c := reachable_construct {} true
  obtain ⟨value, hm, hkey, hbad⟩ : ∃ value : Blob, value.mappedFile = none
      ∧ (c.write plainEnv 1 [0] value).ll.db.acByKey [0] ≠ none
      ∧ ¬ Restorable plainEnv c value :=
    ⟨largeValue, rfl, by decide +kernel, by decide +kernel⟩
  refine hbad ((read_write_of_valid Function.injective_id storing_lawful
    (valid_of_reachable storing_lawful hc) (by decide) hm 1 [] hkey).mp ?_)
  exact h c hc [0] (by decide) value hm 1 hkey

end LocalDiskCache
end Cradle.Disk
