import Mathlib.Data.List.TakeWhile
import Cradle.Resolve.Request
import Cradle.Lib.Decoder
import Cradle.Lib.Occurrence

/-!
# Uuids that are saved, loaded and cloned

`str()` finalizes a uuid: it appends the extensions to `str_` and leaves the modifiers set.
The saved form is the full string, so a loaded uuid has no modifiers, and `make_base_string`
cuts the string of either at its first `'+'`.
-/

namespace Cradle.Resolve.RequestUuid

/-! ## Finalizing, saving and loading -/

/-- What `do_finalize` appends. -/
def extensions (u : RequestUuid) : List Char :=
  (match u.level with | some level => level.ext | none => [])
    ++ (if u.flattened then "+flattened".toList else [])
    ++ (if u.isProxy then ":proxy".toList else [])

/-- The modifiers stay set, so a second call appends them again. -/
def doFinalize (u : RequestUuid) : RequestUuid :=
  { u with base := u.base ++ u.extensions, finalized := true }

def finalize (u : RequestUuid) : RequestUuid := if u.finalized then u else u.doFinalize

/-- `load`, from msgpack: nothing is finalized. -/
def load (s : List Char) : RequestUuid := { base := s }

/-- `load_with_name`, from a cereal archive. -/
def loadWithName (s : List Char) : RequestUuid := (load s).doFinalize

/-- The first marker is cut out until there is none. -/
def deproxyUuidStr (s : List Char) : List Char :=
  Occurrence.removeAll ":proxy".toList s.length s

def deproxy (u : RequestUuid) : RequestUuid :=
  { u.doFinalize with base := deproxyUuidStr u.doFinalize.base }

/-! ## The uuids that can be built

`Built s u`: `u` comes from the string `s` by the constructors, the setters, `str()`,
and saving, loading and cloning.  `s` is what the last constructor, `load` or `clone`
started `str_` with; the setters and `str()` do not change it.
-/

inductive Built : List Char → RequestUuid → Prop
  | ofBase {s u} : ofBase s = .ok u → Built s u
  | ofComplete (s) : Built s (ofComplete s)
  | setLevel {s u u' l} : Built s u → u.setLevel l = .ok u' → Built s u'
  | setFlattened {s u u'} : Built s u → u.setFlattened = .ok u' → Built s u'
  | makeProxy {s u u'} : Built s u → u.makeProxy = .ok u' → Built s u'
  | finalize {s u} : Built s u → Built s u.finalize
  | load {s u} : Built s u → Built u.str (load u.str)
  | loadWithName {s u} : Built s u → Built u.str (loadWithName u.str)
  | clone {s u u'} : Built s u → u.clone = .ok u' → Built (makeBaseString u.base) u'

variable {u u' c : RequestUuid} {base text s : List Char} {level : CachingLevel}

theorem ext_eq_cons (level : CachingLevel) : ∃ rest, level.ext = '+' :: rest := by
  cases level <;> exact ⟨_, rfl⟩

theorem str_eq : u.str = if u.finalized then u.base else u.base ++ u.extensions := by
  obtain ⟨base, finalized, level, flattened, isProxy⟩ := u
  cases level <;> simp only [str, extensions, List.append_assoc]

/-- `str()` reads `str_` after finalizing. -/
theorem base_finalize (u : RequestUuid) : u.finalize.base = u.str := by
  rw [str_eq, finalize]
  cases u.finalized <;> rfl

theorem extensions_eq_nil :
    u.extensions = [] ↔ u.level = none ∧ u.flattened = false ∧ u.isProxy = false := by
  obtain ⟨base, finalized, level, flattened, isProxy⟩ := u
  have hflattened : "+flattened".toList ≠ [] := by decide
  have hproxy : ":proxy".toList ≠ [] := by decide
  cases level with
  | none =>
      simp only [extensions, List.append_eq_nil_iff, ite_eq_right_iff, hflattened, hproxy, true_and,
        imp_false, Bool.not_eq_true]
  | some level =>
      obtain ⟨rest, hext⟩ := ext_eq_cons level
      simp only [extensions, hext, List.append_eq_nil_iff, reduceCtorEq, false_and]

/-! ## Cloning -/

theorem makeBaseString_of_mem (h : '+' ∈ text) :
    makeBaseString (text ++ s) = makeBaseString text := by
  induction text with
  | nil => cases h
  | cons x xs ih =>
      by_cases hx : x = '+'
      · simp [makeBaseString, hx]
      · have hxs : '+' ∈ xs := (List.mem_cons.mp h).resolve_left (Ne.symm hx)
        rw [List.cons_append, makeBaseString, makeBaseString, List.takeWhile_cons_of_pos (by simpa),
          List.takeWhile_cons_of_pos (by simpa)]
        exact congrArg _ (ih hxs)

theorem makeBaseString_of_notMem (h : '+' ∉ text) :
    makeBaseString (text ++ s) = text ++ makeBaseString s := by
  rw [makeBaseString, List.takeWhile_append_of_pos]
  · rfl
  · intro x hx
    simpa using fun hplus : x = '+' => h (hplus ▸ hx)

theorem notMem_makeBaseString (text : List Char) : '+' ∉ makeBaseString text := by
  intro h
  simpa using List.mem_takeWhile_imp h

/-- Every extension but the proxy marker starts with `'+'`. -/
theorem makeBaseString_extensions :
    makeBaseString u.extensions = [] ↔
      ¬ (u.isProxy = true ∧ u.level = none ∧ u.flattened = false) := by
  obtain ⟨base, finalized, level, flattened, isProxy⟩ := u
  cases level with
  | none =>
      have hmarks : ∀ flattened isProxy : Bool,
          makeBaseString ((if flattened then "+flattened".toList else [])
              ++ (if isProxy then ":proxy".toList else [])) = []
            ↔ ¬ (isProxy = true ∧ flattened = false) := by
        decide
      simpa only [extensions, List.nil_append, true_and] using hmarks flattened isProxy
  | some level =>
      obtain ⟨rest, hext⟩ := ext_eq_cons level
      simp only [extensions, hext, List.cons_append, makeBaseString]
      simp only [List.takeWhile_cons, ne_eq, not_true_eq_false, decide_false, Bool.false_eq_true,
        if_false, reduceCtorEq, false_and, and_false, not_false_eq_true]

theorem clone_eq (h : makeBaseString u.base ≠ []) :
    u.clone = .ok { u with base := makeBaseString u.base, finalized := false } := by
  obtain ⟨base, finalized, level, flattened, isProxy⟩ := u
  have hbase : ofBase (makeBaseString base) = .ok { base := makeBaseString base } := by
    rw [ofBase, if_neg h, if_neg (notMem_makeBaseString base)]
  cases level <;> cases flattened <;> cases isProxy <;>
    simp [clone, hbase, setLevel, setFlattened, makeProxy, checkNotFinalized, pure, Except.pure,
      bind, Except.bind]

/-- The text before the first `'+'` does not depend on what a `'+'` starts after it. -/
theorem makeBaseString_append (h : makeBaseString s = []) :
    makeBaseString (text ++ s) = makeBaseString text := by
  by_cases hplus : '+' ∈ text
  · exact makeBaseString_of_mem hplus
  · have htext := makeBaseString_of_notMem (s := []) hplus
    rw [List.append_nil] at htext
    rw [makeBaseString_of_notMem hplus, htext, h]
    rfl

theorem makeBaseString_eq_self : makeBaseString text = text ↔ '+' ∉ text := by
  refine ⟨fun h => h ▸ notMem_makeBaseString text, fun h => ?_⟩
  have htext := makeBaseString_of_notMem (s := []) h
  rw [List.append_nil] at htext
  rw [htext]
  exact List.append_nil text

/-- A uuid is not cloned exactly where its base string is empty. -/
theorem clone_ok_iff : (∃ c, u.clone = .ok c) ↔ makeBaseString u.base ≠ [] := by
  refine ⟨fun ⟨c, hc⟩ hempty => ?_, fun h => ⟨_, clone_eq h⟩⟩
  rw [clone, hempty] at hc
  exact nomatch hc

/-! ## What a built uuid holds -/

/-- What `str_` holds: the text, and after finalizing the extensions of the modifiers. -/
def Holds (text : List Char) (u : RequestUuid) : Prop :=
  u.base = text ++ if u.finalized then u.extensions else []

theorem ofBase_ok (h : ofBase base = .ok u) : base ≠ [] ∧ '+' ∉ base ∧ u = { base } := by
  rw [ofBase] at h
  split at h
  case isTrue => cases h
  case isFalse hempty =>
      split at h
      case isTrue => cases h
      case isFalse hplus =>
          cases h
          exact ⟨hempty, hplus, rfl⟩

theorem setLevel_ok (h : u.setLevel level = .ok u') :
    u.finalized = false ∧ u' = { u with level := some level } := by
  rw [setLevel, checkNotFinalized] at h
  cases hfinal : u.finalized with
  | true => rw [hfinal] at h; cases h
  | false => rw [hfinal] at h; cases h; exact ⟨rfl, rfl⟩

theorem setFlattened_ok (h : u.setFlattened = .ok u') :
    u.finalized = false ∧ u.flattened = false ∧ u' = { u with flattened := true } := by
  rw [setFlattened, checkNotFinalized] at h
  cases hfinal : u.finalized with
  | true => rw [hfinal] at h; cases h
  | false =>
      cases hset : u.flattened with
      | true => rw [hfinal, hset] at h; cases h
      | false => rw [hfinal, hset] at h; cases h; exact ⟨rfl, rfl, rfl⟩

theorem makeProxy_ok (h : u.makeProxy = .ok u') :
    u.finalized = false ∧ u.isProxy = false ∧ u' = { u with isProxy := true } := by
  rw [makeProxy, checkNotFinalized] at h
  cases hfinal : u.finalized with
  | true => rw [hfinal] at h; cases h
  | false =>
      cases hset : u.isProxy with
      | true => rw [hfinal, hset] at h; cases h
      | false => rw [hfinal, hset] at h; cases h; exact ⟨rfl, rfl, rfl⟩

theorem Holds.of_not_finalized (h : Holds text u) (hfinal : u.finalized = false)
    (hbase : u'.base = u.base) (hfinal' : u'.finalized = u.finalized) : Holds text u' := by
  rw [Holds, hfinal] at h
  rw [Holds, hbase, hfinal', hfinal]
  exact h

theorem Holds.str (h : Holds text u) : u.str = text ++ u.extensions := by
  rw [str_eq, h]
  cases hfinal : u.finalized <;> simp

theorem Holds.finalize (h : Holds text u) : Holds text u.finalize := by
  cases hfinal : u.finalized with
  | true => rwa [RequestUuid.finalize, hfinal]
  | false =>
      have hbase : u.base = text := by rw [h, hfinal]; exact List.append_nil text
      rw [RequestUuid.finalize, hfinal, ← hbase]
      rfl

theorem holds_load (s : List Char) : Holds s (load s) := by simp [Holds, load]

theorem Built.holds (h : Built text u) : Holds text u := by
  induction h with
  | ofBase hbase =>
      obtain ⟨-, -, rfl⟩ := ofBase_ok hbase
      exact (List.append_nil _).symm
  | ofComplete => exact (List.append_nil _).symm
  | setLevel _ hset ih =>
      obtain ⟨hfinal, rfl⟩ := setLevel_ok hset
      exact ih.of_not_finalized hfinal rfl rfl
  | setFlattened _ hset ih =>
      obtain ⟨hfinal, -, rfl⟩ := setFlattened_ok hset
      exact ih.of_not_finalized hfinal rfl rfl
  | makeProxy _ hset ih =>
      obtain ⟨hfinal, -, rfl⟩ := makeProxy_ok hset
      exact ih.of_not_finalized hfinal rfl rfl
  | finalize _ ih => exact ih.finalize
  | load _ _ => exact holds_load _
  | loadWithName _ _ => exact (holds_load _).finalize
  | clone _ hclone _ =>
      rw [clone_eq (clone_ok_iff.mp ⟨_, hclone⟩)] at hclone
      cases hclone
      exact (List.append_nil _).symm

theorem Holds.base_of_plain (h : Holds text u) (hlevel : u.level = none)
    (hflattened : u.flattened = false) (hproxy : u.isProxy = false) : u.base = text := by
  rw [h, extensions_eq_nil.mpr ⟨hlevel, hflattened, hproxy⟩, ite_self, List.append_nil]

theorem Holds.makeBaseString_base (h : Holds text u)
    (hext : ¬ (u.isProxy = true ∧ u.level = none ∧ u.flattened = false)) :
    makeBaseString u.base = makeBaseString text := by
  rw [h]
  cases u.finalized with
  | true => exact makeBaseString_append (makeBaseString_extensions.mpr hext)
  | false => exact congrArg makeBaseString (List.append_nil text)

/-! ## Clones of a uuid, and of its saved form -/

def SurvivesClone (u : RequestUuid) : Prop := ∃ c, u.clone = .ok c ∧ c.str = u.str

/-- Marking a clone gives the same string whether `u` is cloned or its loaded saved form. -/
def CopiesAgree (u : RequestUuid) : Prop :=
  ∀ loaded ∈ [load u.str, loadWithName u.str], ∀ mark ∈ [setFlattened, makeProxy],
    ∃ c c', u.clone >>= mark = .ok c ∧ loaded.clone >>= mark = .ok c' ∧ c.str = c'.str

/-- A finalized uuid whose only modifier is the proxy marker gets the marker twice. -/
theorem survivesClone_iff (h : Holds text u) :
    SurvivesClone u ↔ text ≠ [] ∧ '+' ∉ text ∧
      ¬ (u.finalized = true ∧ u.isProxy = true ∧ u.level = none ∧ u.flattened = false) := by
  have hsame : SurvivesClone u ↔ text ≠ [] ∧ makeBaseString u.base = text := by
    constructor
    · rintro ⟨c, hc, hstr⟩
      have hbase := clone_ok_iff.mp ⟨c, hc⟩
      rw [clone_eq hbase] at hc
      cases hc
      rw [h.str, str_eq] at hstr
      have htext := List.append_cancel_right hstr
      exact ⟨htext ▸ hbase, htext⟩
    · rintro ⟨htext, hbase⟩
      refine ⟨_, clone_eq (hbase.symm ▸ htext), ?_⟩
      rw [h.str, str_eq, hbase]
      rfl
  rw [hsame]
  refine and_congr_right fun htext => ?_
  constructor
  · intro hbase
    have hplus : '+' ∉ text := hbase ▸ notMem_makeBaseString u.base
    refine ⟨hplus, fun ⟨hfinal, hproxy⟩ => ?_⟩
    rw [h, hfinal, if_pos rfl, makeBaseString_of_notMem hplus, List.append_right_eq_self] at hbase
    exact makeBaseString_extensions.mp hbase hproxy
  · rintro ⟨hplus, hmarker⟩
    cases hfinal : u.finalized with
    | true =>
        rw [h.makeBaseString_base fun hproxy => hmarker ⟨hfinal, hproxy⟩]
        exact makeBaseString_eq_self.mpr hplus
    | false =>
        rw [h, hfinal]
        simpa using makeBaseString_eq_self.mpr hplus

/-- The saved form has no modifiers, so it is cloned without them. -/
theorem clone_loaded {loaded : RequestUuid} (hloaded : loaded ∈ [load s, loadWithName s])
    (h : makeBaseString s ≠ []) : loaded.clone = .ok { base := makeBaseString s } := by
  have hbase : loaded.base = s ∧ loaded.level = none ∧ loaded.flattened = false ∧
      loaded.isProxy = false := by
    rcases List.mem_pair.mp hloaded with rfl | rfl
    · exact ⟨rfl, rfl, rfl, rfl⟩
    · exact ⟨List.append_nil s, rfl, rfl, rfl⟩
  obtain ⟨hbase, hlevel, hflattened, hproxy⟩ := hbase
  rw [clone_eq (hbase.symm ▸ h), hbase, hlevel, hflattened, hproxy]

theorem str_of_base (hfinal : u.finalized = false) : u.str = u.base ++ u.extensions := by
  rw [str_eq, hfinal]
  rfl

theorem CopiesAgree.plain (h : Holds text u) (hagree : CopiesAgree u) :
    makeBaseString text ≠ [] ∧ u.level = none ∧ u.flattened = false ∧ u.isProxy = false := by
  obtain ⟨c, c', hc, hc', hstr⟩ := hagree (load u.str) (by simp) setFlattened (by simp)
  obtain ⟨d, -, hd, -, -⟩ := hagree (load u.str) (by simp) makeProxy (by simp)
  obtain ⟨clone, hclone, hc⟩ := Except.bind_eq_ok.mp hc
  obtain ⟨clone', hclone', hc'⟩ := Except.bind_eq_ok.mp hc'
  obtain ⟨clone'', hclone'', hd⟩ := Except.bind_eq_ok.mp hd
  have hbase := clone_ok_iff.mp ⟨_, hclone⟩
  have hstrBase : makeBaseString u.str ≠ [] := clone_ok_iff.mp ⟨_, hclone'⟩
  rw [clone_eq hbase] at hclone hclone''
  rw [clone_loaded (List.mem_cons_self) hstrBase] at hclone'
  cases hclone
  cases hclone'
  cases hclone''
  obtain ⟨-, hflattened, rfl⟩ := setFlattened_ok hc
  obtain ⟨-, -, rfl⟩ := setFlattened_ok hc'
  obtain ⟨-, hproxy, -⟩ := makeProxy_ok hd
  -- Neither the flattened nor the proxy mark was set, so both strings start with the same text.
  have hproxy : u.isProxy = false := hproxy
  have hflattened : u.flattened = false := hflattened
  have hmarker : ¬ (u.isProxy = true ∧ u.level = none ∧ u.flattened = false) := by simp [hproxy]
  rw [str_of_base rfl, str_of_base rfl, h.str] at hstr
  dsimp only at hstr
  rw [h.makeBaseString_base hmarker,
    makeBaseString_append (makeBaseString_extensions.mpr hmarker), List.append_right_inj] at hstr
  rw [h.makeBaseString_base hmarker] at hbase
  refine ⟨hbase, ?_, hflattened, hproxy⟩
  cases hlevel : u.level with
  | none => rfl
  | some level =>
      have hlength := congrArg List.length hstr
      obtain ⟨rest, hext⟩ := ext_eq_cons level
      simp only [extensions, hlevel, hext, hproxy, List.length_append, if_true, List.length_cons,
        List.length_nil] at hlength
      omega

theorem copiesAgree_of_plain (h : Holds text u) (hbase : makeBaseString text ≠ [])
    (hlevel : u.level = none) (hflattened : u.flattened = false) (hproxy : u.isProxy = false) :
    CopiesAgree u := by
  have hstr : u.str = text := by
    rw [h.str, extensions_eq_nil.mpr ⟨hlevel, hflattened, hproxy⟩, List.append_nil]
  have hclone : u.clone = .ok { base := makeBaseString text } := by
    have hu := h.base_of_plain hlevel hflattened hproxy
    rw [clone_eq (hu.symm ▸ hbase), hu, hlevel, hflattened, hproxy]
  intro loaded hloaded mark hmark
  rw [hstr] at hloaded
  rw [hclone, clone_loaded hloaded hbase]
  rcases List.mem_pair.mp hmark with rfl | rfl
  · exact ⟨_, _, rfl, rfl, rfl⟩
  · exact ⟨_, _, rfl, rfl, rfl⟩

/-- Cloning commutes with saving and loading for the uuids that carry no modifier. -/
theorem survivesClone_and_copiesAgree_iff (h : Built text u) :
    SurvivesClone u ∧ CopiesAgree u ↔
      text ≠ [] ∧ '+' ∉ text ∧ u.level = none ∧ u.flattened = false ∧ u.isProxy = false := by
  rw [survivesClone_iff h.holds]
  constructor
  · rintro ⟨⟨htext, hplus, -⟩, hagree⟩
    exact ⟨htext, hplus, (hagree.plain h.holds).2⟩
  · rintro ⟨htext, hplus, hlevel, hflattened, hproxy⟩
    have hbase : makeBaseString text ≠ [] := (makeBaseString_eq_self.mpr hplus).symm ▸ htext
    refine ⟨⟨htext, hplus, by simp [hproxy]⟩, ?_⟩
    exact copiesAgree_of_plain h.holds hbase hlevel hflattened hproxy

theorem base_survives : SurvivesClone { base := "base".toList } ∧
    CopiesAgree { base := "base".toList } :=
  (survivesClone_and_copiesAgree_iff (Built.ofBase (s := "base".toList) rfl)).mpr (by decide)

/-- The clone of `"base+full"` is marked to `"base+full+flattened"`, that of its loaded saved
form to `"base+flattened"`. -/
theorem leveled_copies_differ :
    Built "base".toList { base := "base".toList, level := some .full } ∧
      ¬ CopiesAgree { base := "base".toList, level := some .full } := by
  refine ⟨(Built.ofBase (s := "base".toList) rfl).setLevel (l := .full) rfl, fun h => ?_⟩
  obtain ⟨c, c', hc, hc', hstr⟩ := h (load _) List.mem_cons_self setFlattened List.mem_cons_self
  cases hc
  cases hc'
  exact absurd hstr (by decide)

/-! ## Proxies

A proxy request takes the uuid of the function request it stands for, with the marker set.
-/

/-- A request's uuid: the base, and the caching level if its class has one. -/
def ofRequest (base : List Char) (level : Option CachingLevel) : Except Exn RequestUuid := do
  let u ← ofBase base
  match level with
  | none => return u
  | some level => u.setLevel level

theorem ofRequest_ok {level : Option CachingLevel} (h : ofRequest base level = .ok u) :
    u = { base, level } := by
  obtain ⟨b, hbase, h⟩ := Except.bind_eq_ok.mp h
  obtain ⟨-, -, rfl⟩ := ofBase_ok hbase
  cases level with
  | none => cases h; rfl
  | some level => exact (setLevel_ok h).2

/-- The text of a level has no marker, and does not complete one. -/
theorem proxy_infix_str (base : List Char) (level : Option CachingLevel) :
    ":proxy".toList <:+: str { base, level } ↔ ":proxy".toList <:+: base := by
  rw [str_of_base rfl]
  cases level with
  | none => simp [extensions]
  | some level =>
      have hlevel : ∃ rest, level.ext = '+' :: rest ∧ ¬ ":proxy".toList <:+: rest := by
        cases level <;> exact ⟨_, rfl, by decide⟩
      obtain ⟨rest, hext, hrest⟩ := hlevel
      have hextensions : extensions { base, level := some level } = '+' :: rest := by
        simp [extensions, hext]
      rw [hextensions, Occurrence.infix_append_cons (by decide), or_iff_left hrest]

theorem not_infix_deproxyUuidStr (s : List Char) :
    ¬ ":proxy".toList <:+: deproxyUuidStr s :=
  Occurrence.not_infix_removeAll (by decide) le_rfl

theorem deproxyUuidStr_of_not_infix (h : ¬ ":proxy".toList <:+: s) : deproxyUuidStr s = s :=
  Occurrence.removeAll_of_not_infix h

theorem deproxyUuidStr_append (h : ¬ ":proxy".toList <:+: s) :
    deproxyUuidStr (s ++ ":proxy".toList) = s := by
  have hmarker : ":proxy".toList = ':' :: "proxy".toList := by decide
  have hfind : Occurrence.find ":proxy".toList (s ++ ":proxy".toList) = some s.length := by
    rw [hmarker] at h ⊢
    exact Occurrence.find_append_self (by decide) h
  have hlength : (s ++ ":proxy".toList).length = s.length + 5 + 1 := by simp
  rw [deproxyUuidStr, hlength, Occurrence.removeAll, hfind]
  simpa using Occurrence.removeAll_of_not_infix h

/-- What is loaded has no modifiers left to append. -/
theorem str_deproxy_loaded {loaded : RequestUuid} (h : loaded ∈ [load s, loadWithName s]) :
    loaded.deproxy.str = deproxyUuidStr s := by
  have hbase : loaded.doFinalize.base = s := by
    rcases List.mem_pair.mp h with rfl | rfl <;> simp [loadWithName, doFinalize, load, extensions]
  rw [str_eq, deproxy, hbase]
  rfl

/-- A base that has the marker itself loses it. -/
theorem str_deproxy_iff {level : Option CachingLevel} {function proxy : RequestUuid}
    (hfunction : ofRequest base level = .ok function) (hproxy : function.makeProxy = .ok proxy) :
    (∀ loaded ∈ [load proxy.str, loadWithName proxy.str], loaded.deproxy.str = function.str) ∧
      (∀ loaded ∈ [load function.str, loadWithName function.str],
        loaded.deproxy.str = function.str) ↔
    ¬ ":proxy".toList <:+: base := by
  obtain rfl := ofRequest_ok hfunction
  obtain ⟨-, -, rfl⟩ := makeProxy_ok hproxy
  rw [← proxy_infix_str base level]
  constructor
  · rintro ⟨-, hself⟩ hinfix
    have hstr := hself (load _) List.mem_cons_self
    rw [str_deproxy_loaded List.mem_cons_self] at hstr
    rw [← hstr] at hinfix
    exact not_infix_deproxyUuidStr _ hinfix
  · intro hinfix
    refine ⟨fun loaded hloaded => ?_, fun loaded hloaded => ?_⟩
    · have hstr : str { base, level, isProxy := true } = str { base, level } ++ ":proxy".toList := by
        rw [str_of_base rfl, str_of_base rfl]
        simp [extensions]
      rw [str_deproxy_loaded hloaded, hstr]
      exact deproxyUuidStr_append hinfix
    · rw [str_deproxy_loaded hloaded]
      exact deproxyUuidStr_of_not_infix hinfix

theorem base_full_deproxied :
    let function : RequestUuid := { base := "base".toList, level := some .full }
    (∀ loaded ∈ [load "base+full:proxy".toList, loadWithName "base+full:proxy".toList],
        loaded.deproxy.str = function.str) ∧
      ∀ loaded ∈ [load function.str, loadWithName function.str],
        loaded.deproxy.str = function.str :=
  (@str_deproxy_iff "base".toList (some .full) _ _ rfl rfl).mpr (by decide)

/-- The function is `"a:proxyb+full"`, its proxy is mapped back to `"ab+full"`. -/
theorem proxy_base_lost :
    ofRequest "a:proxyb".toList (some .full)
        = .ok { base := "a:proxyb".toList, level := some .full } ∧
      makeProxy { base := "a:proxyb".toList, level := some .full }
        = .ok { base := "a:proxyb".toList, level := some .full, isProxy := true } ∧
      (load (str { base := "a:proxyb".toList, level := some .full, isProxy := true })).deproxy.str
        = "ab+full".toList ∧
      str { base := "a:proxyb".toList, level := some .full } ≠ "ab+full".toList := by
  decide

end Cradle.Resolve.RequestUuid
