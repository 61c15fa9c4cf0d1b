import Cradle.Typing.Conformance
import Cradle.Typing.Numbers
import Cradle.Typing.Order

/-!
# What a coercion keeps

A coerced value has the items and fields of the value, and its numbers, unless two keys of a
map become the same key.  The entries of the maps are what tells: a coercion never makes more
of them, and as many only where no two keys became the same.
-/

namespace Cradle

open Bounded Cradle.Dynamic

section
variable (p : Bytes → Option ℤ)
  (l : ApiNamedTypeReference → Except CoercionException ApiTypeInfo)

/-- The second value has the items, the entries, the fields and the numbers of the first. -/
inductive Keeps : Dynamic → Dynamic → Prop
  | same {v} : Keeps v v
  | datetime {s t} : p s = some t → Keeps (.string s) (.datetime t)
  | integer {x i} : x.IsNumber i → Keeps (.float x) (.integer i)
  | float {i x} : x.IsNearest i → Keeps (.integer i) (.float x)
  | noFields : Keeps (.array []) (.map [])
  | array {items rs} : items.length = rs.length → (∀ x y, (x, y) ∈ items.zip rs → Keeps x y) →
      Keeps (.array items) (.array rs)
  | map {m fs m'} : m.length = fs.length → (∀ f g, (f, g) ∈ m.zip fs → Keeps f.1 g.1) →
      (∀ f g, (f, g) ∈ m.zip fs → Keeps f.2 g.2) → fs.Perm m' → Keeps (.map m) (.map m')

/-- What a value stands for under a schema, if it stands for one thing: no two keys of a map
stand for the same key. -/
inductive StandsFor : ApiTypeInfo → Dynamic → Dynamic → Prop
  | same {t v} : t.expects = some v.type → StandsFor t v v
  | dynamic {v} : StandsFor .dynamic v v
  | enum {values s} : s ∈ values → StandsFor (.enum values) (.string s) (.string s)
  | datetime {t} : StandsFor .datetime (.datetime t) (.datetime t)
  | time {s t} : p s = some t → StandsFor .datetime (.string s) (.datetime t)
  | integer {i} : StandsFor .integer (.integer i) (.integer i)
  | number {x i} : x.IsNumber i → StandsFor .integer (.float x) (.integer i)
  | float {x} : StandsFor .float (.float x) (.float x)
  | nearest {i} : StandsFor .float (.integer i) (.float (.ofInteger i))
  | array {size t items rs} : items.length = rs.length →
      (∀ x y, (x, y) ∈ items.zip rs → StandsFor t x y) →
      StandsFor (.array size t) (.array items) (.array rs)
  | noFields {k t} : StandsFor (.map k t) (.array []) (.map [])
  | map {k t m fs} : m.length = fs.length → (∀ f g, (f, g) ∈ m.zip fs → StandsFor k f.1 g.1) →
      (∀ f g, (f, g) ∈ m.zip fs → StandsFor t f.2 g.2) → DistinctKeys fs →
      StandsFor (.map k t) (.map m) (.map (assignFields fs))
  | some {t x y} : StandsFor t x y →
      StandsFor (.optional t) (.map [(.string someTag, x)]) (.map [(.string someTag, y)])
  | none {t} : StandsFor (.optional t) (.map [(.string noneTag, .nil)])
      (.map [(.string noneTag, .nil)])
  | structure {fields m m'} : m.length = m'.length →
      (∀ f g, (f, g) ∈ m.zip m' → f.1 = g.1 ∧ ((∀ d ∈ fields, f.1 ≠ .string d.1) → f.2 = g.2)) →
      (∀ f g d, (f, g) ∈ m.zip m' → d ∈ fields → f.1 = .string d.1 →
        StandsFor d.2.schema f.2 g.2) →
      StandsFor (.structure fields) (.map m) (.map m')
  | union {members tag m x y} : members.find? (fun member => tag = member.1) = some m →
      StandsFor m.2.schema x y →
      StandsFor (.union members) (.map [(.string tag, x)]) (.map [(.string tag, y)])
  | named {ref t v r} : l ref = .ok t → StandsFor t v r → StandsFor (.named ref) v r

/-- Under the schema of the keys of a map the two values stand for the same key. -/
def SameKey (k : ApiTypeInfo) (a b : Dynamic) : Prop :=
  ∃ u w, StandsFor p l k a u ∧ StandsFor p l k b w ∧ u.order w = .eq

/-- No two keys of the map stand for the same key. -/
def KeysStayApart (t : ApiTypeInfo) (v : Dynamic) : Prop :=
  ∀ k s m, t = .map k s → v = .map m → m.Pairwise fun f g => ¬ SameKey p l k f.1 g.1

end

section
variable {p : Bytes → Option ℤ}
  {l : ApiNamedTypeReference → Except CoercionException ApiTypeInfo}
  {fuel : ℕ} {t k : ApiTypeInfo} {v r u : Dynamic} {m m' fs : List (Dynamic × Dynamic)}

/-! ## What is kept -/

theorem itemsEntries_congr {items rs : List Dynamic}
    (h : List.Forall₂ (fun x y => y.entries = x.entries) items rs) :
    itemsEntries rs = itemsEntries items := by
  induction h with
  | nil => rfl
  | cons hxy _ ih => rw [itemsEntries, itemsEntries, hxy, ih]

theorem fieldsEntries_congr
    (h : List.Forall₂ (fun f g => g.1.entries = f.1.entries ∧ g.2.entries = f.2.entries) m fs) :
    fieldsEntries fs = fieldsEntries m := by
  induction h with
  | nil => rfl
  | cons hfg _ ih => rw [fieldsEntries, fieldsEntries, hfg.1, hfg.2, ih]

/-- Where everything is kept no entry is lost. -/
theorem Keeps.entries_eq (h : Keeps p v r) : r.entries = v.entries := by
  induction h with
  | same | datetime | integer | float | noFields => rfl
  | array hlen _ ih =>
      exact itemsEntries_congr (List.forall₂_iff_zip.mpr ⟨hlen, fun hxy => ih _ _ hxy⟩)
  | map hlen _ _ hperm ihk ihx =>
      rw [entries_map, entries_map, ← fieldsEntries_perm hperm]
      exact fieldsEntries_congr
        (List.forall₂_iff_zip.mpr ⟨hlen, fun hfg => ⟨ihk _ _ hfg, ihx _ _ hfg⟩⟩)

/-! ## The fields of a structure, one by one -/

theorem key_ne_of_sorted {s : Bytes} {x : Dynamic} (h : Sorted ((.string s, x) :: m))
    {g : Dynamic × Dynamic} (hg : g ∈ m) : g.1 ≠ .string s := by
  intro heq
  have hlt := (List.pairwise_cons.mp h).1 g hg
  rw [heq, lt_string, decide_eq_true_eq] at hlt
  exact List.lt_irrefl s hlt

theorem findField_of_mem {s : Bytes} {x : Dynamic} (hm : Sorted m) (h : (.string s, x) ∈ m) :
    findField m (.string s) = some x := by
  induction m with
  | nil => cases h
  | cons f m ih =>
      obtain ⟨k, y⟩ := f
      rcases List.mem_cons.mp h with heq | hmem
      · cases heq
        exact findField_cons_self
      · have hk : k ≠ .string s := by
          rintro rfl
          exact key_ne_of_sorted hm hmem rfl
        rw [findField_cons_of_ne hk]
        exact ih (List.pairwise_cons.mp hm).2 hmem

theorem sorted_of_keys (hkeys : List.Forall₂ (fun f g => f.1 = g.1) m m') (hm : Sorted m) :
    Sorted m' := by
  have hmap := List.pairwise_map (f := Prod.fst) (R := fun a b : Dynamic => a.lt b = true) (l := m)
  rw [hkeys.map_eq_map] at hmap
  exact List.pairwise_map.mp (hmap.mpr hm)

theorem updateField_fields {s : Bytes} {x y : Dynamic} (hm : Sorted m)
    (hfind : findField m (.string s) = some x) :
    List.Forall₂ (fun f g => f.1 = g.1 ∧ (f.1 ≠ .string s → f.2 = g.2) ∧
      (f.1 = .string s → f.2 = x ∧ g.2 = y)) m (updateField (.string s) y m) := by
  induction m with
  | nil => exact .nil
  | cons f m ih =>
      obtain ⟨k, z⟩ := f
      by_cases hk : k = .string s
      · subst hk
        rw [findField_cons_self] at hfind
        cases hfind
        rw [updateField_cons_self]
        refine .cons ⟨rfl, fun h => absurd rfl h, fun _ => ⟨rfl, rfl⟩⟩ ?_
        exact List.forall₂_same.mpr fun g hg =>
          ⟨rfl, fun _ => rfl, fun heq => absurd heq (key_ne_of_sorted hm hg)⟩
      · rw [findField_cons_of_ne hk] at hfind
        rw [updateField_cons_of_ne hk]
        have hrest := ih (List.pairwise_cons.mp hm).2 hfind
        exact .cons ⟨rfl, fun _ => rfl, fun h => absurd h hk⟩ hrest

theorem coerceDeclared_fields {d : Bytes × ApiStructureFieldInfo ApiTypeInfo} (hm : Sorted m)
    (h : (coerceDeclared p l fuel m d).Returns m') :
    List.Forall₂ (fun f g => f.1 = g.1 ∧ (f.1 ≠ .string d.1 → f.2 = g.2) ∧
      (f.1 = .string d.1 → (coerceValueImpl p l fuel d.2.schema f.2).Returns g.2)) m m' := by
  rw [coerceDeclared] at h
  cases hfind : findField m (.string d.1) with
  | some x =>
      simp only [hfind, returns_bind, returns_pure] at h
      obtain ⟨y, hy, rfl⟩ := h
      refine (updateField_fields hm hfind).imp fun f g hfg => ⟨hfg.1, hfg.2.1, fun hk => ?_⟩
      obtain ⟨hx, hy'⟩ := hfg.2.2 hk
      rw [hx, hy']
      exact hy
  | none =>
      have hsame : m = m' := by
        by_cases homit : d.2.omissible = some true
        · simpa only [hfind, homit, if_true, returns_pure] using h
        · simp [hfind, homit] at h
      subst hsame
      refine List.forall₂_same.mpr fun f hf => ⟨rfl, fun _ => rfl, fun hk => ?_⟩
      have hmem : (Dynamic.string d.1, f.2) ∈ m := hk ▸ hf
      rw [findField_of_mem hm hmem] at hfind
      cases hfind

/-- A field that is declared is coerced, another is left as it is. -/
def FieldCoerced (p : Bytes → Option ℤ)
    (l : ApiNamedTypeReference → Except CoercionException ApiTypeInfo) (fuel : ℕ)
    (fields : List (Bytes × ApiStructureFieldInfo ApiTypeInfo)) (f g : Dynamic × Dynamic) : Prop :=
  f.1 = g.1 ∧ ((∀ d ∈ fields, f.1 ≠ .string d.1) → f.2 = g.2) ∧
    ∀ d ∈ fields, f.1 = .string d.1 → (coerceValueImpl p l fuel d.2.schema f.2).Returns g.2

theorem foldlM_fields {fields : List (Bytes × ApiStructureFieldInfo ApiTypeInfo)}
    (names : fields.Pairwise fun f g => f.1 < g.1) (hm : Sorted m)
    (h : (fields.foldlM (coerceDeclared p l fuel) m).Returns m') :
    List.Forall₂ (FieldCoerced p l fuel fields) m m' := by
  induction fields generalizing m with
  | nil =>
      rw [returns_pure.mp h]
      exact List.forall₂_same.mpr fun _ _ => ⟨rfl, fun _ => rfl, fun _ hd => nomatch hd⟩
  | cons d fields ih =>
      obtain ⟨hd, names⟩ := List.pairwise_cons.mp names
      rw [List.foldlM_cons, returns_bind] at h
      obtain ⟨m₁, h₁, h⟩ := h
      have hfirst := coerceDeclared_fields hm h₁
      have hm₁ := sorted_of_keys (hfirst.imp fun _ _ hfg => hfg.1) hm
      refine (hfirst.through (ih names hm₁ h)).imp ?_
      rintro f g ⟨e, ⟨hkey, hother, hdeclared⟩, hkey', hother', hdeclared'⟩
      have hnames {d' : Bytes × ApiStructureFieldInfo ApiTypeInfo} (hd' : d' ∈ fields)
          (hk : f.1 = .string d.1) : e.1 ≠ .string d'.1 := by
        intro hk'
        have hsame : d.1 = d'.1 := Dynamic.string.inj (hk.symm.trans (hkey.trans hk'))
        exact List.lt_irrefl _ (hsame ▸ hd d' hd')
      refine ⟨hkey.trans hkey', fun hnone => ?_, List.forall_mem_cons.mpr ⟨fun hk => ?_, ?_⟩⟩
      · obtain ⟨hnot, hnone⟩ := List.forall_mem_cons.mp hnone
        exact (hother hnot).trans (hother' fun d' hd' => hkey ▸ hnone d' hd')
      · rw [← hother' fun d' hd' => hnames hd' hk]
        exact hdeclared hk
      · intro d' hd' hk
        have hne : f.1 ≠ .string d.1 := fun hk' => hnames hd' hk' (hkey ▸ hk)
        rw [hother hne]
        exact hdeclared' d' hd' (hkey ▸ hk)

/-! ## What a value stands for -/

theorem tag_of_eq {s s' : Bytes} {x y : Dynamic}
    (h : Dynamic.map [(.string s, x)] = .map [(.string s', y)]) : s = s' := by
  cases h
  rfl

/-- Where a value stands for something, this is what it is coerced to. -/
theorem StandsFor.eq_of_coerce {L : Limits} (hl : ∀ ref t, l ref = .ok t → t.WellFormed)
    (hu : StandsFor p l t v u) (ht : t.WellFormed) (hv : v.Within L)
    (h : (coerceValueImpl p l fuel t v).Returns r) : r = u := by
  induction fuel generalizing t v r u with
  | zero => exact absurd h not_returns_exhausted
  | succ fuel ih =>
      cases hu with
      | same he => exact ((coerce_expects he).mp h).2.symm
      | dynamic => exact (returns_pure.mp h).symm
      | enum hs =>
          obtain ⟨_, -, -, rfl⟩ := coerce_enum.mp h
          rfl
      | datetime =>
          rcases coerce_datetime.mp h with ⟨_, _, heq, -⟩ | ⟨_, -, rfl⟩
          · cases heq
          · rfl
      | time hs =>
          rcases coerce_datetime.mp h with ⟨_, x, heq, hs', rfl⟩ | ⟨_, heq, -⟩
          · cases heq
            rw [hs] at hs'
            cases hs'
            rfl
          · cases heq
      | integer =>
          rcases coerce_integer.mp h with ⟨_, _, heq, -⟩ | ⟨_, -, rfl⟩
          · cases heq
          · rfl
      | number hnumber =>
          rcases coerce_integer.mp h with ⟨_, i, heq, hcast, he, rfl⟩ | ⟨_, heq, -⟩
          · cases heq
            rw [(isNumber_of_cast hcast he).unique hnumber]
          · cases heq
      | float =>
          rcases coerce_float.mp h with ⟨_, heq, -⟩ | ⟨_, -, rfl⟩
          · cases heq
          · rfl
      | nearest =>
          rcases coerce_float.mp h with ⟨_, heq, rfl⟩ | ⟨_, heq, -⟩
          · cases heq
            rfl
          · cases heq
      | array hlen hus =>
          obtain ⟨_, rs, heq, hrs, rfl⟩ := coerce_array.mp h
          cases heq
          cases ht with
          | array ht =>
              cases hv with
              | array _ hitems =>
                  have hus := List.forall₂_iff_zip.mpr ⟨hlen, fun hxy => hus _ _ hxy⟩
                  rw [hrs.eq_of_agree hus fun x hx _ _ hy hu => ih hu ht (hitems x hx) hy]
      | noFields =>
          rcases coerce_map.mp h with ⟨-, rfl⟩ | ⟨_, _, heq, -⟩ | ⟨_, _, heq, -⟩
          · rfl
          · cases heq
          · cases heq
      | @map k t m us hlen hks hxs hdistinct =>
          cases ht with
          | map hk ht =>
              cases hv with
              | map _ hsorted hkeys hvalues =>
                  have hus : List.Forall₂ (fun f g => StandsFor p l k f.1 g.1 ∧
                      StandsFor p l t f.2 g.2) m us :=
                    List.forall₂_iff_zip.mpr ⟨hlen, fun hfg => ⟨hks _ _ hfg, hxs _ _ hfg⟩⟩
                  rcases coerce_map.mp h with ⟨heq, -⟩ | ⟨_, fs, heq, -, hfs, rfl⟩ |
                    ⟨_, fs, heq, hkept, hfs, rfl⟩
                  · cases heq
                  · cases heq
                    rw [hfs.eq_of_agree hus fun f hf g u hg hu => Prod.ext
                      (ih hu.1 hk (hkeys f hf) hg.1) (ih hu.2 ht (hvalues f hf) hg.2)]
                  · cases heq
                    have hfsorted := sorted_of_keys (hfs.imp fun _ _ hfg => hfg.1) hsorted
                    rw [← hfs.eq_of_agree hus fun f hf g u hg hu => Prod.ext (hg.1 ▸
                      ih hu.1 hk (hkeys f hf) (coerce_of_check_false (hkept f hf)))
                      (ih hu.2 ht (hvalues f hf) hg.2), assignFields_sorted hfsorted]
      | some hx =>
          cases ht with
          | optional ht =>
              cases hv with
              | map _ _ _ hvalues =>
                  rcases coerce_optional.mp h with ⟨_, z, heq, hz, rfl⟩ | ⟨heq, -⟩
                  · cases heq
                    rw [ih hx ht (hvalues _ List.mem_cons_self) hz]
                  · exact absurd (tag_of_eq heq) (by decide)
      | none =>
          rcases coerce_optional.mp h with ⟨_, z, heq, -⟩ | ⟨-, rfl⟩
          · exact absurd (tag_of_eq heq) (by decide)
          · rfl
      | @«structure» fields m us hlen hkeys hx =>
          obtain ⟨_, m', heq, hfold, rfl⟩ := coerce_structure.mp h
          cases heq
          cases ht with
          | «structure» names hfields =>
              cases hv with
              | map _ hsorted _ hvalues =>
                  have hus := List.forall₂_iff_zip.mpr ⟨hlen, fun hfg => And.intro (hkeys _ _ hfg)
                    fun d hd => hx _ _ d hfg hd⟩
                  have hfs := foldlM_fields names hsorted hfold
                  rw [hfs.eq_of_agree hus]
                  rintro f hf g u ⟨hkey, hother, hdeclared⟩ ⟨⟨hkey', hother'⟩, hdeclared'⟩
                  refine Prod.ext (hkey.symm.trans hkey') ?_
                  by_cases hd : ∃ d ∈ fields, f.1 = .string d.1
                  · obtain ⟨d, hd, hk⟩ := hd
                    exact ih (hdeclared' d hd hk) (hfields d hd) (hvalues f hf) (hdeclared d hd hk)
                  · have hnone : ∀ d ∈ fields, f.1 ≠ .string d.1 := fun d hd' hk => hd ⟨d, hd', hk⟩
                    exact (hother hnone).symm.trans (hother' hnone)
      | union hfind hx =>
          obtain ⟨m, _, y, heq, hfind', hy, rfl⟩ := coerce_union.mp h
          cases heq
          rw [hfind] at hfind'
          cases hfind'
          cases ht with
          | union names hmembers =>
              cases hv with
              | map _ _ _ hvalues =>
                  have hmember := hmembers _ (List.mem_of_find?_eq_some hfind)
                  rw [ih hx hmember (hvalues _ List.mem_cons_self) hy]
      | named hresolved hx =>
          obtain ⟨t, hresolved', h⟩ := coerce_named.mp h
          rw [hresolved] at hresolved'
          cases hresolved'
          exact ih hx (hl _ _ hresolved) hv h

theorem distinctKeys_of_sorted (h : Sorted m) : DistinctKeys m :=
  h.imp fun hlt heq => by
    rw [lt_iff.mp hlt] at heq
    cases heq

/-- Where the keys stay apart, a value stands for what it is coerced to. -/
theorem standsFor_of_coerce {L : Limits} (hl : ∀ ref t, l ref = .ok t → t.WellFormed)
    (ht : t.WellFormed) (hv : v.Within L) (h : (coerceValueImpl p l fuel t v).Returns r)
    (hapart : Everywhere l (KeysStayApart p l) t v) : StandsFor p l t v r := by
  induction fuel generalizing t v r with
  | zero => exact absurd h not_returns_exhausted
  | succ fuel ih =>
      cases ht with
      | array ht =>
          obtain ⟨items, rs, rfl, hrs, rfl⟩ := coerce_array.mp h
          have hitems := (everywhere_array.mp hapart).2
          cases hv with
          | array _ hwithin =>
              refine .array hrs.length_eq fun x y hxy => ?_
              have hx := (List.of_mem_zip hxy).1
              exact ih ht (hwithin x hx) (List.forall₂_zip hrs hxy) (hitems x hx)
      | datetime =>
          rcases coerce_datetime.mp h with ⟨s, x, rfl, hs, rfl⟩ | ⟨x, rfl, rfl⟩
          · exact .time hs
          · exact .datetime
      | dynamic =>
          obtain rfl := returns_pure.mp h
          exact .dynamic
      | enum =>
          obtain ⟨s, rfl, hs, rfl⟩ := coerce_enum.mp h
          exact .enum hs
      | float =>
          rcases coerce_float.mp h with ⟨i, rfl, rfl⟩ | ⟨x, rfl, rfl⟩
          · exact .nearest
          · exact .float
      | integer =>
          rcases coerce_integer.mp h with ⟨x, i, rfl, hcast, he, rfl⟩ | ⟨i, rfl, rfl⟩
          · exact .number (isNumber_of_cast hcast he)
          · exact .integer
      | @map k t hk ht =>
          rcases coerce_map.mp h with ⟨rfl, rfl⟩ | ⟨m, fs, rfl, -, hfs, rfl⟩ |
            ⟨m, fs, rfl, hkept, hfs, rfl⟩
          · exact .noFields
          · obtain ⟨hkeys, hfields⟩ := everywhere_map.mp hapart
            cases hv with
            | map _ _ hwithin hwithin' =>
                have hstands : List.Forall₂ (fun f g => StandsFor p l k f.1 g.1 ∧
                    StandsFor p l t f.2 g.2) m fs := by
                  refine List.forall₂_iff_zip.mpr ⟨hfs.length_eq, fun {f g} hfg => ?_⟩
                  have hf := (List.of_mem_zip hfg).1
                  obtain ⟨hkey, hvalue⟩ := List.forall₂_zip hfs hfg
                  exact ⟨ih hk (hwithin f hf) hkey (hfields f hf).1,
                    ih ht (hwithin' f hf) hvalue (hfields f hf).2⟩
                refine .map hfs.length_eq (fun f g hfg => (List.forall₂_zip hstands hfg).1)
                  (fun f g hfg => (List.forall₂_zip hstands hfg).2) ?_
                exact hstands.pairwise (hkeys k t m rfl rfl) fun f f' g g' hfg hfg' hnot heq =>
                  hnot ⟨g.1, g'.1, hfg.1, hfg'.1, heq⟩
          · obtain ⟨-, hfields⟩ := everywhere_map.mp hapart
            cases hv with
            | map _ hsorted hwithin hwithin' =>
                have hfsorted := sorted_of_keys (hfs.imp fun _ _ hfg => hfg.1) hsorted
                rw [← assignFields_sorted hfsorted]
                refine .map hfs.length_eq (fun f g hfg => ?_) (fun f g hfg => ?_)
                  (distinctKeys_of_sorted hfsorted)
                · have hf := (List.of_mem_zip hfg).1
                  rw [← (List.forall₂_zip hfs hfg).1]
                  exact ih hk (hwithin f hf) (coerce_of_check_false (hkept f hf)) (hfields f hf).1
                · have hf := (List.of_mem_zip hfg).1
                  exact ih ht (hwithin' f hf) (List.forall₂_zip hfs hfg).2 (hfields f hf).2
      | named =>
          obtain ⟨resolved, hresolved, h⟩ := coerce_named.mp h
          exact .named hresolved
            (ih (hl _ _ hresolved) hv h ((everywhere_named hresolved).mp hapart).2)
      | optional ht =>
          rcases coerce_optional.mp h with ⟨x, y, rfl, hy, rfl⟩ | ⟨rfl, rfl⟩
          · cases hv with
            | map _ _ _ hwithin =>
                exact .some (ih ht (hwithin _ List.mem_cons_self) hy (everywhere_some.mp hapart).2)
          · exact .none
      | @«structure» fields names hfields =>
          obtain ⟨m, m', rfl, hfold, rfl⟩ := coerce_structure.mp h
          have hdeclared := (everywhere_structure.mp hapart).2
          cases hv with
          | map _ hsorted _ hwithin =>
              have hfs := foldlM_fields names hsorted hfold
              refine .structure hfs.length_eq (fun f g hfg => ?_) fun f g d hfg hd hk => ?_
              · obtain ⟨hkey, hother, -⟩ := List.forall₂_zip hfs hfg
                exact ⟨hkey, hother⟩
              · have hf := (List.of_mem_zip hfg).1
                have hmem : (Dynamic.string d.1, f.2) ∈ m := hk ▸ hf
                exact ih (hfields d hd) (hwithin f hf) ((List.forall₂_zip hfs hfg).2.2 d hd hk)
                  (hdeclared d hd f.2 (findField_of_mem hsorted hmem))
      | @union members names hmembers =>
          obtain ⟨m, x, y, rfl, hfind, hy, rfl⟩ := coerce_union.mp h
          have hmember := hmembers m (List.mem_of_find?_eq_some hfind)
          cases hv with
          | map _ _ _ hwithin =>
              exact .union hfind (ih hmember (hwithin _ List.mem_cons_self) hy
                ((everywhere_union hfind).mp hapart).2)
      | reference | blob | boolean | string | nil | function | record =>
          obtain ⟨he, rfl⟩ := (coerce_expects rfl).mp h
          exact .same (congrArg some he)

theorem natAbs_of_inRange {i : ℤ} (h : IntType.int64.InRange i) : i.natAbs ≤ 2 ^ 63 := by
  have hlowest : IntType.int64.lowest = -2 ^ 63 := by decide
  rw [IntType.InRange, hlowest, IntType.width] at h
  omega

theorem Keeps.single {x y : Dynamic} {s : Bytes} (h : Keeps p x y) :
    Keeps p (.map [(.string s, x)]) (.map [(.string s, y)]) := by
  have hfields : List.Forall₂ (fun f g => Keeps p f.1 g.1 ∧ Keeps p f.2 g.2)
      [(Dynamic.string s, x)] [(Dynamic.string s, y)] := .cons ⟨.same, h⟩ .nil
  exact .map hfields.length_eq (fun _ _ hfg => (List.forall₂_zip hfields hfg).1)
    (fun _ _ hfg => (List.forall₂_zip hfields hfg).2) (.refl _)

/-- What a value stands for keeps everything of it. -/
theorem StandsFor.keeps {L : Limits} (h : StandsFor p l t v r) (hv : v.Within L) :
    Keeps p v r := by
  induction h with
  | same | dynamic | enum | datetime | integer | float | none => exact .same
  | time hs => exact .datetime hs
  | number hnumber => exact .integer hnumber
  | nearest =>
      cases hv with
      | integer hrange => exact .float (Double.isNearest_ofInteger (natAbs_of_inRange hrange))
  | array hlen _ ih =>
      cases hv with
      | array _ hitems =>
          exact .array hlen fun x y hxy => ih x y hxy (hitems x (List.of_mem_zip hxy).1)
  | noFields => exact .noFields
  | map hlen _ _ hdistinct ihk ihx =>
      cases hv with
      | map _ _ hkeys hvalues =>
          exact .map hlen (fun f g hfg => ihk f g hfg (hkeys f (List.of_mem_zip hfg).1))
            (fun f g hfg => ihx f g hfg (hvalues f (List.of_mem_zip hfg).1))
            (assignFields_perm hdistinct).symm
  | some _ ih =>
      cases hv with
      | map _ _ _ hvalues => exact .single (ih (hvalues _ List.mem_cons_self))
  | @«structure» fields m m' hlen hkeys _ ih =>
      cases hv with
      | map _ _ _ hvalues =>
          refine .map hlen (fun f g hfg => ?_) (fun f g hfg => ?_) (.refl _)
          · rw [(hkeys f g hfg).1]
            exact .same
          · by_cases hd : ∃ d ∈ fields, f.1 = .string d.1
            · obtain ⟨d, hd, hk⟩ := hd
              exact ih f g d hfg hd hk (hvalues f (List.of_mem_zip hfg).1)
            · rw [(hkeys f g hfg).2 fun d hd' hk => hd ⟨d, hd', hk⟩]
              exact .same
  | union _ _ ih =>
      cases hv with
      | map _ _ _ hvalues => exact .single (ih (hvalues _ List.mem_cons_self))
  | named _ _ ih => exact ih hv

/-! ## Entries are lost where keys become the same -/

theorem itemsEntries_le {P : Dynamic → Prop} {items rs : List Dynamic}
    (h : List.Forall₂ (fun x y => y.entries ≤ x.entries ∧ (y.entries = x.entries → P x)) items rs) :
    itemsEntries rs ≤ itemsEntries items ∧
      (itemsEntries rs = itemsEntries items → ∀ x ∈ items, P x) := by
  induction h with
  | nil => exact ⟨Nat.le_refl _, fun _ _ hx => nomatch hx⟩
  | cons hxy _ ih =>
      obtain ⟨hle, hP⟩ := hxy
      obtain ⟨hrest, hPs⟩ := ih
      rw [itemsEntries, itemsEntries]
      refine ⟨by omega, fun heq => List.forall_mem_cons.mpr ⟨hP (by omega), hPs (by omega)⟩⟩

theorem fieldsEntries_le {P : Dynamic × Dynamic → Prop}
    (h : List.Forall₂ (fun f g => g.1.entries ≤ f.1.entries ∧ g.2.entries ≤ f.2.entries ∧
      (g.1.entries = f.1.entries → g.2.entries = f.2.entries → P f)) m fs) :
    fieldsEntries fs ≤ fieldsEntries m ∧ (fieldsEntries fs = fieldsEntries m → ∀ f ∈ m, P f) := by
  induction h with
  | nil => exact ⟨Nat.le_refl _, fun _ _ hf => nomatch hf⟩
  | cons hfg _ ih =>
      obtain ⟨hk, hx, hP⟩ := hfg
      obtain ⟨hrest, hPs⟩ := ih
      rw [fieldsEntries, fieldsEntries]
      refine ⟨by omega, fun heq => List.forall_mem_cons.mpr ⟨hP ?_ ?_, hPs ?_⟩⟩
      all_goals omega

theorem equals_self_of_coerce (ht : t.WellFormed) (hl : ∀ ref t, l ref = .ok t → t.WellFormed)
    (hv : v.Within withoutNaN) (h : (coerceValueImpl p l fuel t v).Returns r) :
    r.equals r = true := by
  induction fuel generalizing t v r with
  | zero => exact absurd h not_returns_exhausted
  | succ fuel ih =>
      have hself : v.equals v = true := hv.equals_self fun _ hx => hx
      cases ht with
      | array ht =>
          obtain ⟨items, rs, rfl, hrs, rfl⟩ := coerce_array.mp h
          cases hv with
          | array _ hitems =>
              refine equals_array.mpr (List.forall₂_same.mpr fun y hy => ?_)
              obtain ⟨x, hx, hxy⟩ := hrs.exists_of_mem_right hy
              exact ih ht (hitems x hx) hxy
      | datetime =>
          rcases coerce_datetime.mp h with ⟨s, x, rfl, -, rfl⟩ | ⟨x, rfl, rfl⟩
          · simp [Dynamic.equals]
          · exact hself
      | dynamic =>
          obtain rfl := returns_pure.mp h
          exact hself
      | enum =>
          obtain ⟨s, rfl, -, rfl⟩ := coerce_enum.mp h
          exact hself
      | float =>
          rcases coerce_float.mp h with ⟨i, rfl, rfl⟩ | ⟨x, rfl, rfl⟩
          · cases hv with
            | integer hrange =>
                have hfinite := Double.isFinite_ofInteger (natAbs_of_inRange hrange)
                simp [Dynamic.equals, Double.equals, Double.isNaN_of_isFinite hfinite]
          · exact hself
      | integer =>
          rcases coerce_integer.mp h with ⟨x, i, rfl, -, -, rfl⟩ | ⟨i, rfl, rfl⟩
          · simp [Dynamic.equals]
          · exact hself
      | @map k t hk ht =>
          have hmap (fs : List (Dynamic × Dynamic))
              (hfs : ∀ g ∈ fs, g.1.equals g.1 = true ∧ g.2.equals g.2 = true) :
              (Dynamic.map fs).equals (.map fs) = true :=
            equals_map.mpr (List.forall₂_same.mpr hfs)
          rcases coerce_map.mp h with ⟨rfl, rfl⟩ | ⟨m, fs, rfl, -, hfs, rfl⟩ |
            ⟨m, fs, rfl, -, hfs, rfl⟩
          · exact hmap [] (by simp)
          · cases hv with
            | map _ _ hkeys hvalues =>
                refine hmap _ (mem_assignFields (P := fun key => key.equals key = true)
                  (Q := fun value => value.equals value = true) fun g hg => ?_)
                obtain ⟨f, hf, hkey, hvalue⟩ := hfs.exists_of_mem_right hg
                exact ⟨ih hk (hkeys f hf) hkey, ih ht (hvalues f hf) hvalue⟩
          · cases hv with
            | map _ _ hkeys hvalues =>
                refine hmap fs fun g hg => ?_
                obtain ⟨f, hf, hkey, hvalue⟩ := hfs.exists_of_mem_right hg
                rw [← hkey]
                exact ⟨(hkeys f hf).equals_self fun _ hx => hx, ih ht (hvalues f hf) hvalue⟩
      | named =>
          obtain ⟨resolved, hresolved, h⟩ := coerce_named.mp h
          exact ih (hl _ _ hresolved) hv h
      | optional ht =>
          rcases coerce_optional.mp h with ⟨x, y, rfl, hy, rfl⟩ | ⟨rfl, rfl⟩
          · cases hv with
            | map _ _ _ hvalues =>
                simp [Dynamic.equals, fieldsEqual, ih ht (hvalues _ List.mem_cons_self) hy]
          · exact hself
      | @«structure» fields names hfields =>
          obtain ⟨m, m', rfl, hfold, rfl⟩ := coerce_structure.mp h
          cases hv with
          | map _ hsorted hkeys hvalues =>
              refine equals_map.mpr (List.forall₂_same.mpr fun g hg => ?_)
              obtain ⟨f, hf, hkey, hother, hdeclared⟩ :=
                (foldlM_fields names hsorted hfold).exists_of_mem_right hg
              rw [← hkey]
              refine ⟨(hkeys f hf).equals_self fun _ hx => hx, ?_⟩
              by_cases hd : ∃ d ∈ fields, f.1 = .string d.1
              · obtain ⟨d, hd, hk⟩ := hd
                exact ih (hfields d hd) (hvalues f hf) (hdeclared d hd hk)
              · rw [← hother fun d hd' hk => hd ⟨d, hd', hk⟩]
                exact (hvalues f hf).equals_self fun _ hx => hx
      | @union members names hmembers =>
          obtain ⟨m, x, y, rfl, hfind, hy, rfl⟩ := coerce_union.mp h
          have hmember := hmembers m (List.mem_of_find?_eq_some hfind)
          cases hv with
          | map _ _ _ hvalues =>
              simp [Dynamic.equals, fieldsEqual, ih hmember (hvalues _ List.mem_cons_self) hy]
      | reference | blob | boolean | string | nil | function | record =>
          obtain ⟨-, rfl⟩ := (coerce_expects rfl).mp h
          exact hself

/-- No entry is added, and where none is lost the keys stay apart. -/
def EntriesDecide (p : Bytes → Option ℤ)
    (l : ApiNamedTypeReference → Except CoercionException ApiTypeInfo) (t : ApiTypeInfo)
    (v r : Dynamic) : Prop :=
  r.entries ≤ v.entries ∧ (r.entries = v.entries → Everywhere l (KeysStayApart p l) t v)

theorem entriesDecide_of_no_visit (hv : ∀ s w, ¬ Visits l (t, v) (s, w))
    (hapart : KeysStayApart p l t v) (hle : r.entries ≤ v.entries) : EntriesDecide p l t v r :=
  ⟨hle, fun _ => everywhere_of_no_visit hv hapart⟩

theorem entriesDecide_of_coerce (hl : ∀ ref t, l ref = .ok t → t.WellFormed) (ht : t.WellFormed)
    (hv : v.Within withoutNaN) (h : (coerceValueImpl p l fuel t v).Returns r) :
    EntriesDecide p l t v r := by
  induction fuel generalizing t v r with
  | zero => exact absurd h not_returns_exhausted
  | succ fuel ih =>
      cases ht with
      | array ht =>
          obtain ⟨items, rs, rfl, hrs, rfl⟩ := coerce_array.mp h
          cases hv with
          | array _ hitems =>
              have hdecide := ((List.forall₂_and_left _ _).mpr ⟨hitems, hrs⟩).imp
                fun x y hxy => ih ht hxy.1 hxy.2
              obtain ⟨hle, hapart⟩ := itemsEntries_le hdecide
              exact ⟨hle, fun heq => everywhere_array.mpr ⟨by rintro _ _ _ ⟨⟩, hapart heq⟩⟩
      | datetime =>
          rcases coerce_datetime.mp h with ⟨s, x, rfl, -, rfl⟩ | ⟨x, rfl, rfl⟩
          · exact entriesDecide_of_no_visit (by rintro _ _ ⟨⟩) (by rintro _ _ _ ⟨⟩) (Nat.le_refl _)
          · exact entriesDecide_of_no_visit (by rintro _ _ ⟨⟩) (by rintro _ _ _ ⟨⟩) (Nat.le_refl _)
      | dynamic =>
          obtain rfl := returns_pure.mp h
          exact entriesDecide_of_no_visit (by rintro _ _ ⟨⟩) (by rintro _ _ _ ⟨⟩) (Nat.le_refl _)
      | enum =>
          obtain ⟨s, rfl, -, rfl⟩ := coerce_enum.mp h
          exact entriesDecide_of_no_visit (by rintro _ _ ⟨⟩) (by rintro _ _ _ ⟨⟩) (Nat.le_refl _)
      | float =>
          rcases coerce_float.mp h with ⟨i, rfl, rfl⟩ | ⟨x, rfl, rfl⟩
          · exact entriesDecide_of_no_visit (by rintro _ _ ⟨⟩) (by rintro _ _ _ ⟨⟩) (Nat.le_refl _)
          · exact entriesDecide_of_no_visit (by rintro _ _ ⟨⟩) (by rintro _ _ _ ⟨⟩) (Nat.le_refl _)
      | integer =>
          rcases coerce_integer.mp h with ⟨x, i, rfl, -, -, rfl⟩ | ⟨i, rfl, rfl⟩
          · exact entriesDecide_of_no_visit (by rintro _ _ ⟨⟩) (by rintro _ _ _ ⟨⟩) (Nat.le_refl _)
          · exact entriesDecide_of_no_visit (by rintro _ _ ⟨⟩) (by rintro _ _ _ ⟨⟩) (Nat.le_refl _)
      | @map k t hk ht =>
          rcases coerce_map.mp h with ⟨rfl, rfl⟩ | ⟨m, fs, rfl, -, hfs, rfl⟩ |
            ⟨m, fs, rfl, hkept, hfs, rfl⟩
          · exact entriesDecide_of_no_visit (by rintro _ _ ⟨⟩) (by rintro _ _ _ _ ⟨⟩) (Nat.le_refl _)
          · cases hv with
            | map _ _ hkeys hvalues =>
                have hself (g : Dynamic × Dynamic) (hg : g ∈ fs) : g.1.equals g.1 = true := by
                  obtain ⟨f, hf, hkey, -⟩ := hfs.exists_of_mem_right hg
                  exact equals_self_of_coerce hk hl (hkeys f hf) hkey
                obtain ⟨hle, hdistinct⟩ := fieldsEntries_assignFields hself
                have hwithin := (List.forall₂_and_left _ _).mpr ⟨hkeys, hfs⟩
                have hdecide := ((List.forall₂_and_left _ _).mpr ⟨hvalues, hwithin⟩).imp
                  fun f g hfg => And.intro (ih hk hfg.2.1 hfg.2.2.1) (ih ht hfg.1 hfg.2.2.2)
                obtain ⟨hle', hparts⟩ := fieldsEntries_le (hdecide.imp fun f g hfg =>
                  ⟨hfg.1.1, hfg.2.1, fun hkey hvalue => And.intro (hfg.1.2 hkey) (hfg.2.2 hvalue)⟩)
                refine ⟨hle.trans hle', fun heq => ?_⟩
                rw [entries_map, entries_map] at heq
                refine everywhere_map.mpr ⟨?_, hparts (by omega)⟩
                rintro _ _ _ ⟨⟩ ⟨⟩
                refine hwithin.flip.pairwise (hdistinct (by omega)) ?_
                rintro g g' f f' ⟨hf, hg, -⟩ ⟨hf', hg', -⟩ hne ⟨u, w, hu, hw, hsame⟩
                rw [hu.eq_of_coerce hl hk hf hg, hw.eq_of_coerce hl hk hf' hg'] at hne
                exact hne hsame
          · cases hv with
            | map _ hsorted hkeys hvalues =>
                have hkeep (f : Dynamic × Dynamic) (hf : f ∈ m) :
                    (coerceValueImpl p l fuel k f.1).Returns f.1 :=
                  coerce_of_check_false (hkept f hf)
                have hdecide : List.Forall₂ (fun f g => g.1.entries ≤ f.1.entries ∧
                    g.2.entries ≤ f.2.entries ∧ (g.1.entries = f.1.entries →
                      g.2.entries = f.2.entries → Everywhere l (KeysStayApart p l) k f.1 ∧
                        Everywhere l (KeysStayApart p l) t f.2)) m fs := by
                  refine List.forall₂_iff_zip.mpr ⟨hfs.length_eq, fun {f g} hfg => ?_⟩
                  have hf := (List.of_mem_zip hfg).1
                  obtain ⟨hkey, hvalue⟩ := List.forall₂_zip hfs hfg
                  obtain ⟨-, hkapart⟩ := ih hk (hkeys f hf) (hkeep f hf)
                  obtain ⟨hxle, hxapart⟩ := ih ht (hvalues f hf) hvalue
                  rw [← hkey]
                  exact ⟨Nat.le_refl _, hxle, fun _ heq => ⟨hkapart rfl, hxapart heq⟩⟩
                obtain ⟨hle, hparts⟩ := fieldsEntries_le hdecide
                refine ⟨hle, fun heq => everywhere_map.mpr ⟨?_, hparts heq⟩⟩
                rintro _ _ _ ⟨⟩ ⟨⟩
                refine hsorted.imp_of_mem ?_
                rintro f g hf hg hlt ⟨u, w, hu, hw, hsame⟩
                rw [← hu.eq_of_coerce hl hk (hkeys f hf) (hkeep f hf),
                  ← hw.eq_of_coerce hl hk (hkeys g hg) (hkeep g hg), lt_iff.mp hlt] at hsame
                cases hsame
      | named =>
          obtain ⟨resolved, hresolved, h⟩ := coerce_named.mp h
          obtain ⟨hle, hapart⟩ := ih (hl _ _ hresolved) hv h
          exact ⟨hle, fun heq => (everywhere_named hresolved).mpr ⟨by rintro _ _ _ ⟨⟩, hapart heq⟩⟩
      | optional ht =>
          rcases coerce_optional.mp h with ⟨x, y, rfl, hy, rfl⟩ | ⟨rfl, rfl⟩
          · cases hv with
            | map _ _ _ hvalues =>
                have hx : x.Within withoutNaN := hvalues _ List.mem_cons_self
                obtain ⟨hle, hapart⟩ := ih ht hx hy
                simp only [EntriesDecide, entries_map, fieldsEntries]
                refine ⟨by omega, fun heq => everywhere_some.mpr ⟨?_, hapart (by omega)⟩⟩
                rintro _ _ _ ⟨⟩
          · exact entriesDecide_of_no_visit not_visits_none (by rintro _ _ _ ⟨⟩) (Nat.le_refl _)
      | @«structure» fields names hfields =>
          obtain ⟨m, m', rfl, hfold, rfl⟩ := coerce_structure.mp h
          cases hv with
          | map _ hsorted _ hvalues =>
              have hcoerced := foldlM_fields names hsorted hfold
              have hdecide : List.Forall₂ (fun f g => g.1.entries ≤ f.1.entries ∧
                  g.2.entries ≤ f.2.entries ∧ (g.1.entries = f.1.entries →
                    g.2.entries = f.2.entries → ∀ d ∈ fields, f.1 = .string d.1 →
                      Everywhere l (KeysStayApart p l) d.2.schema f.2)) m m' := by
                refine List.forall₂_iff_zip.mpr ⟨hcoerced.length_eq, fun {f g} hfg => ?_⟩
                have hf := hvalues f (List.of_mem_zip hfg).1
                obtain ⟨hkey, hother, hdeclared⟩ := List.forall₂_zip hcoerced hfg
                rw [← hkey]
                refine ⟨Nat.le_refl _, ?_, fun _ heq d hd hk => ?_⟩
                · by_cases hd : ∃ d ∈ fields, f.1 = .string d.1
                  · obtain ⟨d, hd, hk⟩ := hd
                    exact (ih (hfields d hd) hf (hdeclared d hd hk)).1
                  · rw [← hother fun d hd' hk => hd ⟨d, hd', hk⟩]
                · exact (ih (hfields d hd) hf (hdeclared d hd hk)).2 heq
              obtain ⟨hle, hparts⟩ := fieldsEntries_le hdecide
              refine ⟨hle, fun heq => everywhere_structure.mpr ⟨?_, fun d hd x hx => ?_⟩⟩
              · rintro _ _ _ ⟨⟩
              · exact hparts heq _ (mem_of_findField hx) d hd rfl
      | @union members names hmembers =>
          obtain ⟨m, x, y, rfl, hfind, hy, rfl⟩ := coerce_union.mp h
          have hmember := hmembers m (List.mem_of_find?_eq_some hfind)
          cases hv with
          | map _ _ _ hvalues =>
              have hx : x.Within withoutNaN := hvalues _ List.mem_cons_self
              obtain ⟨hle, hapart⟩ := ih hmember hx hy
              simp only [EntriesDecide, entries_map, fieldsEntries]
              refine ⟨by omega, fun heq => (everywhere_union hfind).mpr ⟨?_, hapart (by omega)⟩⟩
              rintro _ _ _ ⟨⟩
      | reference | blob | boolean | string | nil | function | record =>
          obtain ⟨-, rfl⟩ := (coerce_expects rfl).mp h
          exact entriesDecide_of_no_visit (not_visits_expects rfl) (by rintro _ _ _ ⟨⟩)
            (Nat.le_refl _)

/-- The integer, or a float that is that number. -/
def Dynamic.IsNumber (v : Dynamic) (i : ℤ) : Prop :=
  v = .integer i ∨ ∃ x, v = .float x ∧ x.IsNumber i

theorem standsFor_integer :
    StandsFor p l .integer v u ↔ ∃ i, u = .integer i ∧ v.IsNumber i := by
  constructor
  · intro h
    cases h with
    | same he => cases he
    | integer => exact ⟨_, rfl, .inl rfl⟩
    | number hx => exact ⟨_, rfl, .inr ⟨_, rfl, hx⟩⟩
  · rintro ⟨i, rfl, rfl | ⟨x, rfl, hx⟩⟩
    · exact .integer
    · exact .number hx

/-- Keys that are to be integers stand for the same key if they are the same number. -/
theorem sameKey_integer {a b : Dynamic} :
    SameKey p l .integer a b ↔ ∃ i, a.IsNumber i ∧ b.IsNumber i := by
  simp only [SameKey, standsFor_integer]
  constructor
  · rintro ⟨_, _, ⟨i, rfl, ha⟩, ⟨j, rfl, hb⟩, hsame⟩
    obtain rfl : i = j := Std.LawfulEqOrd.compare_eq_iff_eq.mp hsame
    exact ⟨i, ha, hb⟩
  · rintro ⟨i, ha, hb⟩
    have hsame : compare i i = .eq := Std.ReflCmp.compare_self
    exact ⟨_, _, ⟨i, rfl, ha⟩, ⟨i, rfl, hb⟩, hsame⟩

/-- A coercion loses nothing exactly where no two keys of a map, at any depth, stand for the
same key. -/
theorem coerceValue_keeps_iff (hl : ∀ ref t, l ref = .ok t → t.WellFormed) (ht : t.WellFormed)
    (hv : v.Within withoutNaN) (h : (coerceValue p l fuel t v).Returns r) :
    Keeps p v r ↔ Everywhere l (KeysStayApart p l) t v :=
  ⟨fun hkeeps => (entriesDecide_of_coerce hl ht hv h).2 hkeeps.entries_eq,
    fun hapart => (standsFor_of_coerce hl ht hv h hapart).keeps hv⟩

end

/-- Names by numbers, one of which is a float. -/
def mixedKeys (second : ℤ) : Dynamic :=
  .map [(.integer 1, .string [97]), (.float (.ofInteger second), .string [98])]

theorem mixedKeys_within {second : ℤ} (h : second.natAbs ≤ 2 ^ 63) :
    (mixedKeys second).Within withoutNaN := by
  have hfloat := Double.isNaN_of_isFinite (Double.isFinite_ofInteger h)
  refine .map trivial (.cons (fun g hg => ?_) (List.pairwise_singleton _ _))
    (List.forall_mem_cons.mpr ⟨.integer (by decide), List.forall_mem_singleton.mpr (.float hfloat)⟩)
    (List.forall_mem_cons.mpr ⟨.string trivial, List.forall_mem_singleton.mpr (.string trivial)⟩)
  rw [List.mem_singleton.mp hg]
  rfl

theorem mixedKeys_keeps :
    Keeps (fun _ => none) (mixedKeys 2)
      (.map [(.integer 1, .string [97]), (.integer 2, .string [98])]) := by
  have hr : (coerceValue (fun _ => none) (fun _ => .error (.other [])) 2 (.map .integer .string)
      (mixedKeys 2)).Returns
        (.map [(.integer 1, .string [97]), (.integer 2, .string [98])]) := rfl
  refine (coerceValue_keeps_iff (by rintro ref t ⟨⟩) (.map .integer .string)
    (mixedKeys_within (by decide)) hr).mpr ?_
  refine everywhere_map.mpr ⟨?_, fun f hf => ?_⟩
  · rintro _ _ _ ⟨⟩ ⟨⟩
    refine .cons (fun g hg hsame => ?_) (List.pairwise_singleton _ _)
    rw [List.mem_singleton.mp hg] at hsame
    have htwo : (Double.ofInteger 2).IsNumber 2 := isNumber_of_cast rfl (by decide)
    obtain ⟨i, hfirst | ⟨_, hfirst, -⟩, hsecond | ⟨_, hsecond, hnumber⟩⟩ := sameKey_integer.mp hsame
    · cases hsecond
    · cases hfirst
      cases hsecond
      exact absurd (hnumber.unique htwo) (by decide)
    · cases hfirst
    · cases hfirst
  · exact ⟨everywhere_of_no_visit nofun nofun, everywhere_of_no_visit nofun nofun⟩

/-- With the second key 1 the first entry is lost. -/
theorem not_coerceValue_keeps :
    ¬ ∀ (p : Bytes → Option ℤ) (l : ApiNamedTypeReference → Except CoercionException ApiTypeInfo)
      (fuel : ℕ) (t : ApiTypeInfo) (v r : Dynamic), (∀ ref t, l ref = .ok t → t.WellFormed) →
      t.WellFormed → v.Within withoutNaN → (coerceValue p l fuel t v).Returns r → Keeps p v r := by
  intro h
  have hr : (coerceValue (fun _ => none) (fun _ => .error (.other [])) 2 (.map .integer .string)
      (mixedKeys 1)).Returns (.map [(.integer 1, .string [98])]) := rfl
  have hkeeps := h _ _ _ _ _ _ (by rintro ref t ⟨⟩) (.map .integer .string)
    (mixedKeys_within (by decide)) hr
  exact absurd hkeeps.entries_eq (by decide)

end Cradle
