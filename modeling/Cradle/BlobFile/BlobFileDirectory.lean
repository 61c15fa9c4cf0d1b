import Cradle.Lib.Transition
import Mathlib.Algebra.Group.Nat.Defs
import Mathlib.Data.List.Nodup
import Mathlib.Logic.Function.Basic
import Mathlib.Order.Lattice

/-!
# The names of blob files

A `blob_file_directory` gives out the paths of the blob files that are to be created.  It
numbers them, from the number after the highest one that it has found in the directory
when it was constructed.  A server and its contained servers have an object each, for the
same directory: an object does not see what the others give out after that.

The directory is a list of file names; scanning it is one step.  `startId` is not in the
program: the number that an object has started with.
-/

namespace Cradle.BlobFile

abbrev FileName := List Char

/-- `fmt::format("blob_{}", file_id)`. -/
def blobName (n : ℕ) : FileName := "blob_".toList ++ Nat.toDigits 10 n

/-- The digits of a file name that matches `blob_(\d+)`. -/
def matchBlob (name : FileName) : Option (List Char) :=
  let digits := name.drop 5
  if name.take 5 = "blob_".toList ∧ digits ≠ [] ∧ digits.all Char.isDigit = true then some digits
  else none

/-- What can go wrong with the numbers, which are of type `int`. -/
inductive NumberError
  /-- Thrown by `std::stoi`. -/
  | outOfRange
  /-- An overflow is undefined. -/
  | overflow
  deriving DecidableEq, Repr

/-- The body of the loop of `scan_directory`. -/
def scanEntry (nextFileId : ℕ) (name : FileName) : Except NumberError ℕ :=
  match matchBlob name with
  | none => .ok nextFileId
  | some digits =>
      let fileId := Nat.ofDigitChars 10 digits 0
      if 2 ^ 31 ≤ fileId then .error .outOfRange
      else if 2 ^ 31 ≤ fileId + 1 then .error .overflow
      else .ok (max nextFileId (fileId + 1))

def scanDirectory (files : List FileName) : Except NumberError ℕ := files.foldlM scanEntry 0

/-- `blob_file_directory`. -/
structure BlobFileDirectory where
  startId : ℕ
  nextFileId : ℕ
  deriving DecidableEq, Repr

/-- The object has given out the number. -/
def BlobFileDirectory.Gave (o : BlobFileDirectory) (n : ℕ) : Prop :=
  o.startId ≤ n ∧ n < o.nextFileId

/-- The directory, the objects, the paths that were returned and whether a file existed
then, and what went wrong with the numbers. -/
structure BlobFiles where
  files : List FileName := []
  objects : ℕ → Option BlobFileDirectory := fun _ => none
  returned : List (FileName × Bool) := []
  errors : List NumberError := []

inductive BlobEvent
  | construct (object : ℕ)
  | allocateFile (object : ℕ)
  /-- `blob_file_writer` creates a file that was allocated, or truncates it. -/
  | createFile (name : FileName)

namespace BlobFiles

def construct (s : BlobFiles) (k : ℕ) : BlobFiles :=
  match scanDirectory s.files with
  | .error e => { s with errors := e :: s.errors }
  | .ok n => { s with objects := Function.update s.objects k (some ⟨n, n⟩) }

def allocateFile (s : BlobFiles) (k : ℕ) (o : BlobFileDirectory) : BlobFiles :=
  if 2 ^ 31 ≤ o.nextFileId + 1 then { s with errors := .overflow :: s.errors }
  else
    let name := blobName o.nextFileId
    { s with
      objects := Function.update s.objects k (some { o with nextFileId := o.nextFileId + 1 })
      returned := (name, s.files.contains name) :: s.returned }

def step (s : BlobFiles) : BlobEvent → Option BlobFiles
  | .construct k => if s.objects k = none then some (s.construct k) else none
  | .allocateFile k => (s.objects k).map (s.allocateFile k)
  | .createFile name =>
      if (s.returned.map Prod.fst).contains name then
        some { s with files := if s.files.contains name then s.files else name :: s.files }
      else none

/-- Objects are constructed, no path was returned twice, and none was that of a file. -/
structure AllNew (s : BlobFiles) : Prop where
  errors : s.errors = []
  distinct : (s.returned.map Prod.fst).Nodup
  absent : ∀ r ∈ s.returned, r.2 = false

/-- The file ids that are found fit into an `int`, with some room; the number to be given out
does also, and no other object has given it out. -/
def KeepsApart (s : BlobFiles) : BlobEvent → Prop
  | .construct _ => ∀ name ∈ s.files, ∀ digits, matchBlob name = some digits →
      Nat.ofDigitChars 10 digits 0 + 1 < 2 ^ 31
  | .allocateFile k => ∀ o, s.objects k = some o → o.nextFileId + 1 < 2 ^ 31
      ∧ ∀ l o', l ≠ k → s.objects l = some o' → ¬ o'.Gave o.nextFileId
  | .createFile _ => True

end BlobFiles

/-! ## File names -/

theorem matchBlob_blobName (n : ℕ) : matchBlob (blobName n) = some (Nat.toDigits 10 n) := by
  have hdrop : (blobName n).drop 5 = Nat.toDigits 10 n := rfl
  have htake : (blobName n).take 5 = "blob_".toList := rfl
  have hdigits : (Nat.toDigits 10 n).all Char.isDigit = true :=
    List.all_eq_true.mpr fun c hc =>
      Nat.isDigit_of_mem_toDigits (by decide) (by decide) hc
  rw [matchBlob, hdrop, htake]
  exact if_pos ⟨rfl, Nat.toDigits_ne_nil, hdigits⟩

theorem blobName_injective {m n : ℕ} (h : blobName m = blobName n) : m = n := by
  have hdigits : Nat.toDigits 10 m = Nat.toDigits 10 n := List.append_cancel_left h
  rw [← Nat.ofDigitChars_ten_toDigits (n := m), hdigits, Nat.ofDigitChars_ten_toDigits]

/-! ## Scanning -/

/-- The ids that are found are below the result. -/
theorem scanEntry_ok {next next' : ℕ} {name : FileName} (h : scanEntry next name = .ok next') :
    next ≤ next' ∧ ∀ digits, matchBlob name = some digits →
      Nat.ofDigitChars 10 digits 0 + 1 < 2 ^ 31 ∧ Nat.ofDigitChars 10 digits 0 < next' := by
  rw [scanEntry.eq_def] at h
  cases hmatch : matchBlob name with
  | none =>
      rw [hmatch] at h
      obtain rfl := Except.ok.inj h
      simp
  | some digits =>
      simp only [hmatch] at h
      split at h
      · simp at h
      · split at h
        · simp at h
        · obtain rfl := Except.ok.inj h
          refine ⟨le_max_left _ _, fun digits' heq => ?_⟩
          obtain rfl := Option.some.inj heq
          omega

theorem foldlM_scanEntry_ok {files : List FileName} {next next' : ℕ}
    (h : files.foldlM scanEntry next = .ok next') :
    next ≤ next' ∧ ∀ name ∈ files, ∀ digits, matchBlob name = some digits →
      Nat.ofDigitChars 10 digits 0 + 1 < 2 ^ 31 ∧ Nat.ofDigitChars 10 digits 0 < next' := by
  induction files generalizing next with
  | nil =>
      obtain rfl := Except.ok.inj h
      simp
  | cons name files ih =>
      rw [List.foldlM_cons] at h
      cases hentry : scanEntry next name with
      | error e => simp [hentry, bind, Except.bind] at h
      | ok next₁ =>
          rw [hentry] at h
          obtain ⟨hle, hname⟩ := scanEntry_ok hentry
          obtain ⟨hle', hfiles⟩ := ih h
          refine ⟨hle.trans hle', List.forall_mem_cons.mpr ⟨fun digits hmatch => ?_, hfiles⟩⟩
          obtain ⟨hrange, hlt⟩ := hname digits hmatch
          exact ⟨hrange, hlt.trans_le hle'⟩

theorem exists_scanEntry_ok {name : FileName} (next : ℕ)
    (h : ∀ digits, matchBlob name = some digits → Nat.ofDigitChars 10 digits 0 + 1 < 2 ^ 31) :
    ∃ next', scanEntry next name = .ok next' := by
  rw [scanEntry.eq_def]
  cases hmatch : matchBlob name with
  | none => exact ⟨next, rfl⟩
  | some digits =>
      have := h digits hmatch
      dsimp only
      rw [if_neg (by omega), if_neg (by omega)]
      exact ⟨_, rfl⟩

theorem exists_foldlM_scanEntry_ok {files : List FileName} (next : ℕ)
    (h : ∀ name ∈ files, ∀ digits, matchBlob name = some digits →
      Nat.ofDigitChars 10 digits 0 + 1 < 2 ^ 31) : ∃ next', files.foldlM scanEntry next = .ok next' := by
  induction files generalizing next with
  | nil => exact ⟨next, rfl⟩
  | cons name files ih =>
      obtain ⟨hname, hfiles⟩ := List.forall_mem_cons.mp h
      obtain ⟨next', hentry⟩ := exists_scanEntry_ok next hname
      rw [List.foldlM_cons, hentry]
      exact ih next' hfiles

/-- The scan succeeds exactly if all ids fit. -/
theorem scanDirectory_ok_iff {files : List FileName} :
    (∃ next, scanDirectory files = .ok next)
      ↔ ∀ name ∈ files, ∀ digits, matchBlob name = some digits →
        Nat.ofDigitChars 10 digits 0 + 1 < 2 ^ 31 := by
  refine ⟨?_, exists_foldlM_scanEntry_ok 0⟩
  rintro ⟨next, h⟩ name hname digits hmatch
  exact ((foldlM_scanEntry_ok h).2 name hname digits hmatch).1

/-- No file that is there has a number from the result on. -/
theorem lt_of_scanDirectory {files : List FileName} {next n : ℕ}
    (h : scanDirectory files = .ok next) (hmem : blobName n ∈ files) : n < next := by
  have hlt := ((foldlM_scanEntry_ok h).2 _ hmem _ (matchBlob_blobName n)).2
  rwa [Nat.ofDigitChars_ten_toDigits] at hlt

/-! ## Why the names are new -/

namespace BlobFiles

/-- One of the objects has given out the number. -/
def Given (s : BlobFiles) (n : ℕ) : Prop := ∃ k o, s.objects k = some o ∧ o.Gave n

/-- The paths that were returned are those of the numbers that the objects have given out, and
no file has a number that is yet to come, unless another object has given it out. -/
structure Invariant (s : BlobFiles) : Prop where
  allNew : s.AllNew
  start : ∀ k o, s.objects k = some o → o.startId ≤ o.nextFileId
  returned : ∀ name, name ∈ s.returned.map Prod.fst ↔ ∃ n, s.Given n ∧ name = blobName n
  files : ∀ k o n, s.objects k = some o → o.nextFileId ≤ n → blobName n ∈ s.files → s.Given n

variable {s s' : BlobFiles} {k : ℕ} {o : BlobFileDirectory}

theorem Invariant.returned_blobName (h : s.Invariant) {n : ℕ} :
    blobName n ∈ s.returned.map Prod.fst ↔ s.Given n := by
  rw [h.returned]
  constructor
  · rintro ⟨m, hgiven, hname⟩
    obtain rfl := blobName_injective hname
    exact hgiven
  · exact fun hgiven => ⟨n, hgiven, rfl⟩

/-- The number that comes next has not been given out, where no other object has done so. -/
theorem given_nextFileId (ho : s.objects k = some o) : s.Given o.nextFileId
    ↔ ∃ l o', l ≠ k ∧ s.objects l = some o' ∧ o'.Gave o.nextFileId := by
  constructor
  · rintro ⟨l, o', ho', hgave⟩
    refine ⟨l, o', ?_, ho', hgave⟩
    rintro rfl
    obtain rfl : o = o' := Option.some.inj (ho.symm.trans ho')
    exact absurd hgave.2 (Nat.lt_irrefl _)
  · rintro ⟨l, o', -, ho', hgave⟩
    exact ⟨l, o', ho', hgave⟩

theorem eq_or_of_update {o o' : BlobFileDirectory} {l : ℕ}
    (h : Function.update s.objects k (some o) l = some o') :
    (l = k ∧ o' = o) ∨ s.objects l = some o' := by
  rw [Function.update_apply] at h
  split at h
  case isTrue hl => exact .inl ⟨hl, (Option.some.inj h).symm⟩
  case isFalse => exact .inr h

/-- Replacing one object changes what is given out by what that object has given out. -/
theorem given_update {o' : BlobFileDirectory} {n : ℕ}
    (hold : ∀ o, s.objects k = some o → o.Gave n → o'.Gave n) :
    Given { s with objects := Function.update s.objects k (some o') } n ↔ o'.Gave n ∨ s.Given n := by
  constructor
  · rintro ⟨l, o'', ho'', hgave⟩
    rcases eq_or_of_update ho'' with ⟨-, rfl⟩ | ho''
    · exact .inl hgave
    · exact .inr ⟨l, o'', ho'', hgave⟩
  · rintro (hgave | ⟨l, o'', ho'', hgave⟩)
    · exact ⟨k, o', Function.update_self k (some o') s.objects, hgave⟩
    · by_cases hl : l = k
      · subst hl
        exact ⟨l, o', Function.update_self l (some o') s.objects, hold o'' ho'' hgave⟩
      · refine ⟨l, o'', ?_, hgave⟩
        rw [← ho'']
        exact Function.update_of_ne hl _ _

/-- A new object has given out nothing. -/
theorem given_new (hk : s.objects k = none) {m n : ℕ} :
    Given { s with objects := Function.update s.objects k (some ⟨m, m⟩) } n ↔ s.Given n := by
  rw [given_update (by simp [hk])]
  simp only [BlobFileDirectory.Gave]
  constructor
  · rintro (⟨hle, hlt⟩ | hgiven)
    · exact absurd (hle.trans_lt hlt) (Nat.lt_irrefl m)
    · exact hgiven
  · exact .inr

theorem given_next (ho : s.objects k = some o) (hstart : o.startId ≤ o.nextFileId) {n : ℕ} :
    Given { s with
      objects := Function.update s.objects k (some { o with nextFileId := o.nextFileId + 1 }) } n
        ↔ n = o.nextFileId ∨ s.Given n := by
  rw [given_update]
  · constructor
    · rintro (⟨hle, hlt⟩ | hgiven)
      · rcases Nat.lt_succ_iff_lt_or_eq.mp hlt with hlt | heq
        · exact .inr ⟨k, o, ho, hle, hlt⟩
        · exact .inl heq
      · exact .inr hgiven
    · rintro (rfl | hgiven)
      · exact .inl ⟨hstart, Nat.lt_succ_self _⟩
      · exact .inr hgiven
  · rintro o' ho' ⟨hle, hlt⟩
    obtain rfl : o = o' := Option.some.inj (ho.symm.trans ho')
    exact ⟨hle, Nat.lt_succ_of_lt hlt⟩

theorem Invariant.construct (h : s.Invariant) (hk : s.objects k = none)
    (hok : s.KeepsApart (.construct k)) : (s.construct k).Invariant := by
  obtain ⟨n, hscan⟩ := scanDirectory_ok_iff.mpr hok
  simp only [BlobFiles.construct, hscan]
  constructor
  · exact ⟨h.allNew.errors, h.allNew.distinct, h.allNew.absent⟩
  · intro l o' ho'
    rcases eq_or_of_update ho' with ⟨-, rfl⟩ | ho'
    · exact le_rfl
    · exact h.start l o' ho'
  · simpa only [given_new hk] using h.returned
  · intro l o' m ho' hle hmem
    rw [given_new hk]
    rcases eq_or_of_update ho' with ⟨-, rfl⟩ | ho'
    · exact absurd (lt_of_scanDirectory hscan hmem) (Nat.not_lt.mpr hle)
    · exact h.files l o' m ho' hle hmem

theorem Invariant.allocateFile (h : s.Invariant) (ho : s.objects k = some o)
    (hok : s.KeepsApart (.allocateFile k)) : (s.allocateFile k o).Invariant := by
  obtain ⟨hrange, hapart⟩ := hok o ho
  have hstart := h.start k o ho
  have hgiven : ¬ s.Given o.nextFileId := by
    rw [given_nextFileId ho]
    rintro ⟨l, o', hl, ho', hgave⟩
    exact hapart l o' hl ho' hgave
  have habsent : blobName o.nextFileId ∉ s.files :=
    fun hmem => hgiven (h.files k o o.nextFileId ho le_rfl hmem)
  rw [BlobFiles.allocateFile, if_neg (by omega)]
  constructor
  · refine ⟨h.allNew.errors, ?_, ?_⟩
    · refine List.nodup_cons.mpr ⟨?_, h.allNew.distinct⟩
      rwa [h.returned_blobName]
    · refine List.forall_mem_cons.mpr ⟨?_, h.allNew.absent⟩
      simpa using habsent
  · intro l o' ho'
    rcases eq_or_of_update ho' with ⟨-, rfl⟩ | ho'
    · exact Nat.le_succ_of_le hstart
    · exact h.start l o' ho'
  · intro name
    have hnext : ∀ n, Given { s with
        objects := Function.update s.objects k (some { o with nextFileId := o.nextFileId + 1 })
        returned := (blobName o.nextFileId, s.files.contains (blobName o.nextFileId))
          :: s.returned } n ↔ n = o.nextFileId ∨ s.Given n := fun n => given_next ho hstart
    simp only [List.map_cons, List.mem_cons, h.returned, hnext]
    constructor
    · rintro (hname | ⟨n, hgiven, hname⟩)
      · exact ⟨o.nextFileId, .inl rfl, hname⟩
      · exact ⟨n, .inr hgiven, hname⟩
    · rintro ⟨n, rfl | hgiven, hname⟩
      · exact .inl hname
      · exact .inr ⟨n, hgiven, hname⟩
  · intro l o' n ho' hle hmem
    refine (given_next ho hstart).mpr (.inr ?_)
    rcases eq_or_of_update ho' with ⟨-, rfl⟩ | ho'
    · exact h.files k o n ho (Nat.le_of_succ_le hle) hmem
    · exact h.files l o' n ho' hle hmem

theorem Invariant.createFile (h : s.Invariant) {name : FileName}
    (hname : name ∈ s.returned.map Prod.fst) :
    Invariant { s with files := if s.files.contains name then s.files else name :: s.files } := by
  refine ⟨⟨h.allNew.errors, h.allNew.distinct, h.allNew.absent⟩, h.start, h.returned, ?_⟩
  intro k o n ho hle hmem
  -- the file that was created has a number that was given out
  have hcases : blobName n = name ∨ blobName n ∈ s.files := by
    dsimp only at hmem
    split at hmem
    · exact .inr hmem
    · exact List.mem_cons.mp hmem
  rcases hcases with heq | hmem
  · rw [← heq, h.returned_blobName] at hname
    exact hname
  · exact h.files k o n ho hle hmem

theorem Invariant.step (h : s.Invariant) {e : BlobEvent} (hok : s.KeepsApart e)
    (hstep : s.step e = some s') : s'.Invariant := by
  cases e with
  | construct k =>
      rw [BlobFiles.step] at hstep
      split at hstep
      case isTrue hk =>
          rw [← Option.some.inj hstep]
          exact h.construct hk hok
      case isFalse => simp at hstep
  | allocateFile k =>
      obtain ⟨o, ho, rfl⟩ := Option.map_eq_some_iff.mp hstep
      exact h.allocateFile ho hok
  | createFile name =>
      rw [BlobFiles.step] at hstep
      split at hstep
      case isTrue hname =>
          rw [← Option.some.inj hstep]
          exact h.createFile (List.contains_iff_mem.mp hname)
      case isFalse => simp at hstep

/-- A step that is not as it should be can be told from its result. -/
theorem Invariant.keepsApart (h : s.Invariant) {e : BlobEvent}
    (hstep : s.step e = some s') (h' : s'.AllNew) : s.KeepsApart e := by
  cases e with
  | construct k =>
      rw [BlobFiles.step] at hstep
      split at hstep
      case isTrue hk =>
          rw [← Option.some.inj hstep, BlobFiles.construct] at h'
          refine scanDirectory_ok_iff.mp ?_
          cases hscan : scanDirectory s.files with
          | ok n => exact ⟨n, rfl⟩
          | error e =>
              rw [hscan] at h'
              exact absurd h'.errors (List.cons_ne_nil _ _)
      case isFalse => simp at hstep
  | allocateFile k =>
      intro o ho
      have hs' : s' = s.allocateFile k o := by
        rw [BlobFiles.step, ho] at hstep
        exact (Option.some.inj hstep).symm
      rw [hs', BlobFiles.allocateFile] at h'
      split at h'
      · exact absurd h'.errors (List.cons_ne_nil _ _)
      · refine ⟨by omega, fun l o' hl ho' hgave => ?_⟩
        have hdistinct := (List.nodup_cons.mp h'.distinct).1
        refine hdistinct (h.returned_blobName.mpr ?_)
        exact (given_nextFileId ho).mpr ⟨l, o', hl, ho', hgave⟩
  | createFile name => trivial

theorem invariant_initial (files : List FileName) : Invariant { files } := by
  constructor
  · constructor <;> simp
  · simp
  · simp [Given]
  · simp

/-- All names are new exactly if the ids that are found fit and every object keeps clear of the
numbers of the others. -/
theorem along_allNew_iff (files : List FileName) (events : List BlobEvent) :
    Transition.Along step AllNew { files } events
      ↔ Transition.StepsMeet step KeepsApart { files } events := by
  refine Transition.along_iff_stepsMeet (I := Invariant) ?_ ?_ ?_ (invariant_initial files) events
  · exact fun s h => h.allNew
  · exact fun s s' e h hstep hok => h.step hok hstep
  · exact fun s s' e h hstep h' => h.keepsApart hstep h'

/-- The server and a contained server, both of which start with an empty directory. -/
theorem not_along_allNew : ¬ ∀ files events, Transition.Along step AllNew { files } events := by
  intro h
  have hreturned : (Transition.run step {}
      [.construct 0, .construct 1, .allocateFile 0, .allocateFile 1]).map
        (fun s => s.returned.map Prod.fst) = some [blobName 0, blobName 0] := by
    decide
  obtain ⟨s, hrun, hnames⟩ := Option.map_eq_some_iff.mp hreturned
  have hdistinct := ((h [] _).run hrun).distinct
  rw [hnames] at hdistinct
  simp at hdistinct

end BlobFiles
end Cradle.BlobFile
