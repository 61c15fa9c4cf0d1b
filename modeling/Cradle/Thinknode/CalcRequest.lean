import Cradle.Lib.Assoc
import Cradle.Lib.Bounded
import Cradle.Lib.Decoder
import Cradle.Thinknode.Types
import Mathlib.Logic.Relation

/-!
# Calculation requests

A calculation request is a tree of subcalculations in which a LET names some of them.  The
server takes requests without variables, so a client that unwraps the LETs of a request puts
references in the place of its variables.  Two kinds of subrequests are left as they are by
that: the index of an ITEM and the field of a PROPERTY.
-/

namespace Cradle.Thinknode

/-- `thinknode_calc_request`.  A string is its bytes.  The `definitions` and the `body`
of a LET are its `variables` and its `in`. -/
inductive CalcRequest
  | reference (id : Bytes)
  | value (v : Dynamic)
  | function (account app name : Bytes) (level : Option ℤ) (args : List CalcRequest)
  | array (items : List CalcRequest) (itemSchema : TypeInfo)
  | item (array index : CalcRequest) (schema : TypeInfo)
  | object (properties : List (Bytes × CalcRequest)) (schema : TypeInfo)
  | property (object field : CalcRequest) (schema : TypeInfo)
  | let (definitions : List (Bytes × CalcRequest)) (body : CalcRequest)
  | variable (name : Bytes)
  | «meta» (generator : CalcRequest) (schema : TypeInfo)
  | cast (schema : TypeInfo) (object : CalcRequest)

/-- What the handling of calculations throws: an `internal_check_failed`, or what was thrown
by the submitter. -/
inductive CalcException
  | internalCheckFailed (internalErrorMessage : String)
  | submission (what : Bytes)
  deriving DecidableEq

/-- The variables of a request and what is put in their place. -/
abbrev Substitutions := List (Bytes × CalcRequest)

mutual
/-- `substitute_variables`. -/
def substituteVariables (substitutions : Substitutions) :
    CalcRequest → Except CalcException CalcRequest
  | .reference id => .ok (.reference id)
  | .value v => .ok (.value v)
  | .function account app name level args => do
      return .function account app name level (← substituteAll substitutions args)
  | .array items itemSchema => do return .array (← substituteAll substitutions items) itemSchema
  | .item array index schema => do
      return .item (← substituteVariables substitutions array) index schema
  | .object properties schema => do
      return .object (← substituteProperties substitutions properties) schema
  | .property object field schema => do
      return .property (← substituteVariables substitutions object) field schema
  | .let _ _ =>
      .error (.internalCheckFailed "encountered let request during variable substitution")
  | .variable name =>
      match Assoc.find name substitutions with
      | some substitution => .ok substitution
      | none => .error (.internalCheckFailed "missing variable substitution")
  | .meta generator schema => do
      return .meta (← substituteVariables substitutions generator) schema
  | .cast schema object => do return .cast schema (← substituteVariables substitutions object)
/-- The recursive calls on a vector. -/
def substituteAll (substitutions : Substitutions) :
    List CalcRequest → Except CalcException (List CalcRequest)
  | [] => .ok []
  | request :: requests => do
      return (← substituteVariables substitutions request) ::
        (← substituteAll substitutions requests)
/-- The recursive calls on a map. -/
def substituteProperties (substitutions : Substitutions) :
    List (Bytes × CalcRequest) → Except CalcException (List (Bytes × CalcRequest))
  | [] => .ok []
  | (name, request) :: properties => do
      return (name, ← substituteVariables substitutions request) ::
        (← substituteProperties substitutions properties)
end

namespace CalcRequest

/-! ## Subrequests -/

def isLet : CalcRequest → Bool
  | .let _ _ => true
  | _ => false

def isVariable : CalcRequest → Bool
  | .variable _ => true
  | _ => false

def isMeta : CalcRequest → Bool
  | .meta _ _ => true
  | _ => false

/-- The subrequests that substitution goes into. -/
@[simp] def substituted : CalcRequest → List CalcRequest
  | .function _ _ _ _ args => args
  | .array items _ => items
  | .item source _ _ => [source]
  | .object properties _ => properties.map Prod.snd
  | .property source _ _ => [source]
  | .meta generator _ => [generator]
  | .cast _ source => [source]
  | _ => []

/-- The subrequests that substitution copies. -/
@[simp] def copied : CalcRequest → List CalcRequest
  | .item _ index _ => [index]
  | .property _ field _ => [field]
  | _ => []

/-- All the subrequests. -/
@[simp] def children : CalcRequest → List CalcRequest
  | .reference _ => []
  | .value _ => []
  | .function _ _ _ _ args => args
  | .array items _ => items
  | .item source index _ => [source, index]
  | .object properties _ => properties.map Prod.snd
  | .property source field _ => [source, field]
  | .let definitions body => definitions.map Prod.snd ++ [body]
  | .variable _ => []
  | .meta generator _ => [generator]
  | .cast _ source => [source]

theorem sizeOf_lt_of_mem_snd {child : CalcRequest} {entries : List (Bytes × CalcRequest)}
    (h : child ∈ entries.map Prod.snd) : sizeOf child < sizeOf entries := by
  obtain ⟨⟨name, request⟩, hmem, rfl⟩ := List.mem_map.mp h
  have := List.sizeOf_lt_of_mem hmem
  simp only [Prod.mk.sizeOf_spec] at this ⊢
  omega

theorem sizeOf_lt_of_mem_children {child request : CalcRequest} (h : child ∈ request.children) :
    sizeOf child < sizeOf request := by
  cases request with
  | function account app name level args =>
      have := List.sizeOf_lt_of_mem (show child ∈ args by simpa using h)
      simp only [function.sizeOf_spec]
      omega
  | array items itemSchema =>
      have := List.sizeOf_lt_of_mem (show child ∈ items by simpa using h)
      simp only [array.sizeOf_spec]
      omega
  | object properties schema =>
      have := sizeOf_lt_of_mem_snd (show child ∈ properties.map Prod.snd by simpa using h)
      simp only [object.sizeOf_spec]
      omega
  | «let» definitions body =>
      rw [children, List.mem_append] at h
      rcases h with h | h
      · have := sizeOf_lt_of_mem_snd h
        simp only [let.sizeOf_spec]
        omega
      · simp only [List.mem_singleton] at h
        simp only [let.sizeOf_spec, h]
        omega
  | item array index schema =>
      rcases (show child = array ∨ child = index by simpa using h) with rfl | rfl
      all_goals simp only [item.sizeOf_spec]; omega
  | property object field schema =>
      rcases (show child = object ∨ child = field by simpa using h) with rfl | rfl
      all_goals simp only [property.sizeOf_spec]; omega
  | «meta» generator schema =>
      rw [show child = generator by simpa using h]
      simp only [meta.sizeOf_spec]
      omega
  | cast schema object =>
      rw [show child = object by simpa using h]
      simp only [cast.sizeOf_spec]
      omega
  | reference | value | «variable» => cases h

/-- Induction over the subrequests. -/
@[elab_as_elim]
theorem childInduction {P : CalcRequest → Prop}
    (step : ∀ request, (∀ child ∈ request.children, P child) → P request)
    (request : CalcRequest) : P request :=
  step request fun child hchild =>
    have := sizeOf_lt_of_mem_children hchild
    childInduction step child
termination_by sizeOf request
decreasing_by exact this

/-! ## Variables and LETs in a request -/

/-- `part` is somewhere in the request. -/
def Contains : CalcRequest → CalcRequest → Prop :=
  Relation.ReflTransGen fun request child => child ∈ request.children

/-- Substitution comes to `part`. -/
def Visits : CalcRequest → CalcRequest → Prop :=
  Relation.ReflTransGen fun request child => child ∈ request.substituted

/-- There is no VARIABLE and no LET anywhere. -/
def Closed (request : CalcRequest) : Prop :=
  ∀ part, request.Contains part → part.isVariable = false ∧ part.isLet = false

/-- There is no VARIABLE and no LET in what substitution copies. -/
def CopiesClosed (request : CalcRequest) : Prop :=
  ∀ part, request.Visits part → ∀ child ∈ part.copied, child.Closed

/-- There is no META, and no VARIABLE and no LET in what substitution copies. -/
def Plain (request : CalcRequest) : Prop :=
  request.CopiesClosed ∧ ∀ part, request.Contains part → part.isMeta = false

/-- Substitution comes to no LET and to no VARIABLE of another name. -/
def Substitutable (names : List Bytes) (request : CalcRequest) : Prop :=
  ∀ part, request.Visits part →
    part.isLet = false ∧ ∀ name, part = .variable name → name ∈ names

end CalcRequest

/-- What holds at all that is reached holds here and at all that is reached from the next. -/
theorem forall_reached_iff {α : Type} {R : α → α → Prop} {Q : α → Prop} {x : α} :
    (∀ y, Relation.ReflTransGen R x y → Q y) ↔
      Q x ∧ ∀ y, R x y → ∀ z, Relation.ReflTransGen R y z → Q z := by
  refine ⟨fun h => ⟨h x .refl, fun y hxy z hyz => h z (.head hxy hyz)⟩, fun ⟨hx, h⟩ y hy => ?_⟩
  rcases hy.cases_head with rfl | ⟨z, hxz, hzy⟩
  · exact hx
  · exact h z hxz y hzy

namespace CalcRequest

variable {r r' : CalcRequest} {rs rs' : List CalcRequest} {substitutions : Substitutions}
  {names : List Bytes}

theorem closed_iff :
    r.Closed ↔ (r.isVariable = false ∧ r.isLet = false) ∧ ∀ child ∈ r.children, child.Closed :=
  forall_reached_iff

theorem copiesClosed_iff :
    r.CopiesClosed ↔
      (∀ child ∈ r.copied, child.Closed) ∧ ∀ child ∈ r.substituted, child.CopiesClosed :=
  forall_reached_iff

theorem substitutable_iff :
    r.Substitutable names ↔
      (r.isLet = false ∧ ∀ name, r = .variable name → name ∈ names) ∧
        ∀ child ∈ r.substituted, child.Substitutable names :=
  forall_reached_iff

theorem Substitutable.mono {names' : List Bytes} (hnames : ∀ x ∈ names, x ∈ names')
    (h : r.Substitutable names) : r.Substitutable names' :=
  fun part hpart => ⟨(h part hpart).1, fun name hname => hnames name ((h part hpart).2 name hname)⟩

/-- `r'` is `r` with `parts` in the place of what substitution goes into. -/
def Rebuilds (r r' : CalcRequest) (parts : List CalcRequest) : Prop :=
  r'.isVariable = false ∧ r'.isLet = false ∧ r'.children = parts ++ r.copied

end CalcRequest

/-! ## Substitution -/

section
variable {r r' : CalcRequest} {rs rs' : List CalcRequest}
  {ps ps' : List (Bytes × CalcRequest)} {substitutions : Substitutions}

theorem substituteAll_eq_ok :
    substituteAll substitutions rs = .ok rs' ↔
      List.Forall₂ (fun r r' => substituteVariables substitutions r = .ok r') rs rs' := by
  induction rs generalizing rs' with
  | nil => rw [substituteAll, List.forall₂_nil_left_iff, Except.ok.injEq, eq_comm]
  | cons r rs ih =>
      simp only [substituteAll, bind, pure, Except.bind_eq_ok, Except.pure, Except.ok.injEq, ih,
        List.forall₂_cons_left_iff]
      refine ⟨?_, ?_⟩
      · rintro ⟨r', hr, rs'', hrs, rfl⟩
        exact ⟨r', rs'', hr, hrs, rfl⟩
      · rintro ⟨r', rs'', hr, hrs, rfl⟩
        exact ⟨r', hr, rs'', hrs, rfl⟩

theorem substituteProperties_eq_ok :
    substituteProperties substitutions ps = .ok ps' ↔
      List.Forall₂ (fun p p' => p.1 = p'.1 ∧
        substituteVariables substitutions p.2 = .ok p'.2) ps ps' := by
  induction ps generalizing ps' with
  | nil => rw [substituteProperties, List.forall₂_nil_left_iff, Except.ok.injEq, eq_comm]
  | cons p ps ih =>
      obtain ⟨name, r⟩ := p
      simp only [substituteProperties, bind, pure, Except.bind_eq_ok, Except.pure,
        Except.ok.injEq, ih, List.forall₂_cons_left_iff]
      refine ⟨?_, ?_⟩
      · rintro ⟨r', hr, ps'', hps, rfl⟩
        exact ⟨(name, r'), ps'', ⟨rfl, hr⟩, hps, rfl⟩
      · rintro ⟨⟨_, r'⟩, ps'', ⟨rfl, hr⟩, hps, rfl⟩
        exact ⟨r', hr, ps'', hps, rfl⟩

/-- What a substitution succeeds with, by the form of the request. -/
inductive Substituted (substitutions : Substitutions) : CalcRequest → CalcRequest → Prop
  | variable {name r'} : Assoc.find name substitutions = some r' →
      Substituted substitutions (.variable name) r'
  | reference {id} : Substituted substitutions (.reference id) (.reference id)
  | value {v} : Substituted substitutions (.value v) (.value v)
  | function {account app name level args args'} :
      List.Forall₂ (fun r r' => substituteVariables substitutions r = .ok r') args args' →
      Substituted substitutions (.function account app name level args)
        (.function account app name level args')
  | array {items items' itemSchema} :
      List.Forall₂ (fun r r' => substituteVariables substitutions r = .ok r') items items' →
      Substituted substitutions (.array items itemSchema) (.array items' itemSchema)
  | item {array array' index schema} : substituteVariables substitutions array = .ok array' →
      Substituted substitutions (.item array index schema) (.item array' index schema)
  | object {properties properties' schema} :
      List.Forall₂ (fun p p' => p.1 = p'.1 ∧ substituteVariables substitutions p.2 = .ok p'.2)
        properties properties' →
      Substituted substitutions (.object properties schema) (.object properties' schema)
  | property {object object' field schema} :
      substituteVariables substitutions object = .ok object' →
      Substituted substitutions (.property object field schema) (.property object' field schema)
  | «meta» {generator generator' schema} :
      substituteVariables substitutions generator = .ok generator' →
      Substituted substitutions (.meta generator schema) (.meta generator' schema)
  | cast {schema object object'} : substituteVariables substitutions object = .ok object' →
      Substituted substitutions (.cast schema object) (.cast schema object')

theorem substituteVariables_eq_ok :
    substituteVariables substitutions r = .ok r' ↔ Substituted substitutions r r' := by
  refine ⟨fun h => ?_, fun h => ?_⟩
  · cases r with
    | «variable» name =>
        rw [substituteVariables] at h
        cases hfind : Assoc.find name substitutions with
        | none => rw [hfind] at h; cases h
        | some r'' => rw [hfind] at h; cases h; exact .variable hfind
    | «let» definitions body => cases h
    | reference id => cases h; exact .reference
    | value v => cases h; exact .value
    | function account app name level args =>
        obtain ⟨args', hargs, h⟩ := Except.bind_eq_ok.mp h
        cases h
        exact .function (substituteAll_eq_ok.mp hargs)
    | array items itemSchema =>
        obtain ⟨items', hitems, h⟩ := Except.bind_eq_ok.mp h
        cases h
        exact .array (substituteAll_eq_ok.mp hitems)
    | object properties schema =>
        obtain ⟨properties', hproperties, h⟩ := Except.bind_eq_ok.mp h
        cases h
        exact .object (substituteProperties_eq_ok.mp hproperties)
    | item source index schema =>
        obtain ⟨source', hsource, h⟩ := Except.bind_eq_ok.mp h
        cases h
        exact .item hsource
    | property source field schema =>
        obtain ⟨source', hsource, h⟩ := Except.bind_eq_ok.mp h
        cases h
        exact .property hsource
    | «meta» generator schema =>
        obtain ⟨generator', hgenerator, h⟩ := Except.bind_eq_ok.mp h
        cases h
        exact .meta hgenerator
    | cast schema source =>
        obtain ⟨source', hsource, h⟩ := Except.bind_eq_ok.mp h
        cases h
        exact .cast hsource
  · cases h with
    | «variable» hfind => rw [substituteVariables, hfind]
    | reference => rfl
    | value => rfl
    | function h => exact Except.bind_eq_ok.mpr ⟨_, substituteAll_eq_ok.mpr h, rfl⟩
    | array h => exact Except.bind_eq_ok.mpr ⟨_, substituteAll_eq_ok.mpr h, rfl⟩
    | object h => exact Except.bind_eq_ok.mpr ⟨_, substituteProperties_eq_ok.mpr h, rfl⟩
    | item h => exact Except.bind_eq_ok.mpr ⟨_, h, rfl⟩
    | property h => exact Except.bind_eq_ok.mpr ⟨_, h, rfl⟩
    | «meta» h => exact Except.bind_eq_ok.mpr ⟨_, h, rfl⟩
    | cast h => exact Except.bind_eq_ok.mpr ⟨_, h, rfl⟩

/-- The request is rebuilt from its parts, unless it is a VARIABLE. -/
theorem Substituted.rebuilds (h : Substituted substitutions r r') :
    (∃ name, r = .variable name ∧ Assoc.find name substitutions = some r') ∨
      r.isVariable = false ∧ r.isLet = false ∧ ∃ parts,
        List.Forall₂ (fun part part' => substituteVariables substitutions part = .ok part')
          r.substituted parts ∧ r.Rebuilds r' parts := by
  cases h with
  | «variable» hfind => exact .inl ⟨_, rfl, hfind⟩
  | reference => exact .inr ⟨rfl, rfl, [], .nil, rfl, rfl, by simp⟩
  | value => exact .inr ⟨rfl, rfl, [], .nil, rfl, rfl, by simp⟩
  | function h => exact .inr ⟨rfl, rfl, _, h, rfl, rfl, by simp⟩
  | array h => exact .inr ⟨rfl, rfl, _, h, rfl, rfl, by simp⟩
  | @object _ properties' _ h =>
      refine .inr ⟨rfl, rfl, properties'.map Prod.snd, ?_, rfl, rfl, by simp⟩
      simp only [CalcRequest.substituted, List.forall₂_map_left_iff, List.forall₂_map_right_iff]
      exact h.imp fun _ _ h => h.2
  | item h => exact .inr ⟨rfl, rfl, _, .cons h .nil, rfl, rfl, by simp⟩
  | property h => exact .inr ⟨rfl, rfl, _, .cons h .nil, rfl, rfl, by simp⟩
  | «meta» h => exact .inr ⟨rfl, rfl, _, .cons h .nil, rfl, rfl, by simp⟩
  | cast h => exact .inr ⟨rfl, rfl, _, .cons h .nil, rfl, rfl, by simp⟩

/-- Where the parts can be substituted, the whole can. -/
theorem exists_substituted (hvariable : r.isVariable = false) (hlet : r.isLet = false)
    (hparts : ∀ part ∈ r.substituted, ∃ part', substituteVariables substitutions part = .ok part') :
    ∃ r', Substituted substitutions r r' := by
  cases r with
  | reference id => exact ⟨_, .reference⟩
  | value v => exact ⟨_, .value⟩
  | «let» definitions body => cases hlet
  | «variable» name => cases hvariable
  | function account app name level args =>
      obtain ⟨args', hargs⟩ := List.Forall₂.exists_of_forall hparts
      exact ⟨_, .function hargs⟩
  | array items itemSchema =>
      obtain ⟨items', hitems⟩ := List.Forall₂.exists_of_forall hparts
      exact ⟨_, .array hitems⟩
  | object properties schema =>
      obtain ⟨properties', hproperties⟩ := List.Forall₂.exists_of_forall
        (R := fun p p' : Bytes × CalcRequest =>
          p.1 = p'.1 ∧ substituteVariables substitutions p.2 = .ok p'.2)
        fun p hp => by
          obtain ⟨request, hrequest⟩ := hparts p.2 (List.mem_map_of_mem hp)
          exact ⟨(p.1, request), rfl, hrequest⟩
      exact ⟨_, .object hproperties⟩
  | item source index schema =>
      obtain ⟨source', hsource⟩ := hparts source List.mem_cons_self
      exact ⟨_, .item hsource⟩
  | property source field schema =>
      obtain ⟨source', hsource⟩ := hparts source List.mem_cons_self
      exact ⟨_, .property hsource⟩
  | «meta» generator schema =>
      obtain ⟨generator', hgenerator⟩ := hparts generator List.mem_cons_self
      exact ⟨_, .meta hgenerator⟩
  | cast schema source =>
      obtain ⟨source', hsource⟩ := hparts source List.mem_cons_self
      exact ⟨_, .cast hsource⟩

end

namespace CalcRequest

variable {r r' : CalcRequest} {substitutions : Substitutions}

theorem substituted_subset_children {child : CalcRequest} (h : child ∈ r.substituted) :
    child ∈ r.children := by
  cases r <;> simp_all

/-- A substitution succeeds where it comes to variables that it knows and to no LET. -/
theorem exists_substituteVariables_iff :
    (∃ r', substituteVariables substitutions r = .ok r') ↔
      r.Substitutable (substitutions.map Prod.fst) := by
  induction r using childInduction with
  | step r ih =>
      have hparts : (∀ part ∈ r.substituted, ∃ part',
          substituteVariables substitutions part = .ok part') ↔
          ∀ part ∈ r.substituted, part.Substitutable (substitutions.map Prod.fst) :=
        forall₂_congr fun part hpart => ih part (substituted_subset_children hpart)
      rw [substitutable_iff, ← hparts]
      refine ⟨?_, ?_⟩
      · rintro ⟨r', h⟩
        rcases (substituteVariables_eq_ok.mp h).rebuilds with ⟨name, rfl, hfind⟩ | ⟨hvar, hlet, parts, hrs, -⟩
        · have hmem : name ∈ substitutions.map Prod.fst :=
            Assoc.find_isSome_iff.mp (by rw [hfind]; rfl)
          exact ⟨⟨rfl, fun _ h => by cases h; exact hmem⟩, by simp⟩
        · refine ⟨⟨hlet, ?_⟩, fun part hpart => ?_⟩
          · rintro name rfl
            cases hvar
          · obtain ⟨part', -, hpart'⟩ := hrs.exists_of_mem_left hpart
            exact ⟨part', hpart'⟩
      · rintro ⟨⟨hlet, hnames⟩, h⟩
        by_cases hvar : ∃ name, r = .variable name
        · obtain ⟨name, rfl⟩ := hvar
          obtain ⟨r', hfind⟩ :=
            Option.isSome_iff_exists.mp (Assoc.find_isSome_iff.mpr (hnames name rfl))
          exact ⟨r', by rw [substituteVariables, hfind]⟩
        · have hvar : r.isVariable = false := by
            cases r <;> first | rfl | exact absurd ⟨_, rfl⟩ hvar
          obtain ⟨r', h⟩ := exists_substituted hvar hlet h
          exact ⟨r', substituteVariables_eq_ok.mpr h⟩

/-- References in the place of the variables close the request but for its copies. -/
theorem closed_substituted_iff
    (hclosed : ∀ name request, Assoc.find name substitutions = some request → request.Closed)
    (h : substituteVariables substitutions r = .ok r') : r'.Closed ↔ r.CopiesClosed := by
  induction r using childInduction generalizing r' with
  | step r ih =>
      rcases (substituteVariables_eq_ok.mp h).rebuilds with ⟨name, rfl, hfind⟩ |
        ⟨-, -, parts, hrs, hvar, hlet, hchildren⟩
      · refine iff_of_true (hclosed name r' hfind) (copiesClosed_iff.mpr (by simp))
      · have hparts : (∀ part ∈ parts, part.Closed) ↔ ∀ part ∈ r.substituted, part.CopiesClosed := by
          refine ⟨fun h part hpart => ?_, fun h part' hpart' => ?_⟩
          · obtain ⟨part', hmem, hpart'⟩ := hrs.exists_of_mem_left hpart
            exact (ih part (substituted_subset_children hpart) hpart').mp (h part' hmem)
          · obtain ⟨part, hmem, hpart⟩ := hrs.exists_of_mem_right hpart'
            exact (ih part (substituted_subset_children hmem) hpart).mpr (h part hmem)
        rw [closed_iff, copiesClosed_iff, hchildren, List.forall_mem_append, hparts]
        simp only [hvar, hlet, and_self, true_and]
        exact and_comm

/-- The subrequests of a request that is no LET. -/
theorem mem_children_iff (hlet : r.isLet = false) {child : CalcRequest} :
    child ∈ r.children ↔ child ∈ r.substituted ∨ child ∈ r.copied := by
  cases r <;> simp [isLet] at hlet ⊢

theorem Visits.contains {part : CalcRequest} (h : r.Visits part) : r.Contains part :=
  Relation.ReflTransGen.mono (fun _ _ => substituted_subset_children) _ _ h

theorem Closed.child {child : CalcRequest} (h : r.Closed) (hchild : child ∈ r.children) :
    child.Closed := (closed_iff.mp h).2 child hchild

theorem Closed.copiesClosed (h : r.Closed) : r.CopiesClosed := by
  intro part hpart child hchild
  have hclosed : part.Closed := fun sub hsub => h sub (hpart.contains.trans hsub)
  exact hclosed.child ((mem_children_iff (h part hpart.contains).2).mpr (.inr hchild))

/-- There is nothing to substitute in a closed request. -/
theorem substituteVariables_of_closed (h : r.Closed) :
    substituteVariables substitutions r = .ok r := by
  induction r using childInduction with
  | step r ih =>
      obtain ⟨⟨hvar, hlet⟩, hchildren⟩ := closed_iff.mp h
      have hsame : ∀ child ∈ r.children, substituteVariables substitutions child = .ok child :=
        fun child hchild => ih child hchild (hchildren child hchild)
      rw [substituteVariables_eq_ok]
      cases r with
      | reference id => exact .reference
      | value v => exact .value
      | «variable» name => cases hvar
      | «let» definitions body => cases hlet
      | function account app name level args => exact .function (List.forall₂_same.mpr hsame)
      | array items itemSchema => exact .array (List.forall₂_same.mpr hsame)
      | object properties schema =>
          exact .object (List.forall₂_same.mpr fun p hp =>
            ⟨rfl, hsame p.2 (List.mem_map_of_mem hp)⟩)
      | item source index schema => exact .item (hsame source (by simp))
      | property source field schema => exact .property (hsame source (by simp))
      | «meta» generator schema => exact .meta (hsame generator (by simp))
      | cast schema source => exact .cast (hsame source (by simp))

end CalcRequest

end Cradle.Thinknode
