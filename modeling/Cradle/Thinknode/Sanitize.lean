import Cradle.Thinknode.CalcRequest

/-!
# The levels of a submitted calculation

Before a calculation request is submitted, each function application in it gets a level.
The traversal goes into all subrequests but the index of an ITEM and the field of a PROPERTY,
which it copies, as substitution does.
-/

namespace Cradle.Thinknode

mutual
/-- `sanitize_request`. -/
def sanitizeRequest : CalcRequest → CalcRequest
  | .reference id => .reference id
  | .value v => .value v
  | .function account app name level args =>
      .function account app name (some (level.getD 4)) (sanitizeAll args)
  | .array items itemSchema => .array (sanitizeAll items) itemSchema
  | .item array index schema => .item (sanitizeRequest array) index schema
  | .object properties schema => .object (sanitizeEntries properties) schema
  | .property object field schema => .property (sanitizeRequest object) field schema
  | .let definitions body => .let (sanitizeEntries definitions) (sanitizeRequest body)
  | .variable name => .variable name
  | .meta generator schema => .meta (sanitizeRequest generator) schema
  | .cast schema object => .cast schema (sanitizeRequest object)
/-- The recursive calls on a vector. -/
def sanitizeAll : List CalcRequest → List CalcRequest
  | [] => []
  | request :: requests => sanitizeRequest request :: sanitizeAll requests
/-- The recursive calls on a map. -/
def sanitizeEntries : List (Bytes × CalcRequest) → List (Bytes × CalcRequest)
  | [] => []
  | (name, request) :: entries => (name, sanitizeRequest request) :: sanitizeEntries entries
end

section
variable {requests : List CalcRequest} {entries : List (Bytes × CalcRequest)}

theorem sanitizeAll_eq_map : sanitizeAll requests = requests.map sanitizeRequest := by
  induction requests with
  | nil => rfl
  | cons request requests ih => rw [sanitizeAll, ih, List.map_cons]

theorem sanitizeEntries_eq_map :
    sanitizeEntries entries = entries.map fun entry => (entry.1, sanitizeRequest entry.2) := by
  induction entries with
  | nil => rfl
  | cons entry entries ih => rw [sanitizeEntries, ih, List.map_cons]

theorem map_fst_sanitizeEntries :
    (sanitizeEntries entries).map Prod.fst = entries.map Prod.fst := by
  rw [sanitizeEntries_eq_map, List.map_map]
  rfl

theorem map_snd_sanitizeEntries :
    (sanitizeEntries entries).map Prod.snd = (entries.map Prod.snd).map sanitizeRequest := by
  rw [sanitizeEntries_eq_map, List.map_map, List.map_map]
  rfl

end

/-! ## Levels -/

namespace CalcRequest

/-- If it is a function application, it has a level. -/
def HasLevel : CalcRequest → Prop
  | .function _ _ _ level _ => level.isSome = true
  | _ => True

/-- Every function application in the request has a level. -/
def Leveled (request : CalcRequest) : Prop := ∀ part, request.Contains part → part.HasLevel

/-- Every function application within the index of an ITEM or the field of a PROPERTY has a
level. -/
def CopiesLeveled (request : CalcRequest) : Prop :=
  ∀ part, request.Contains part → ∀ child ∈ part.copied, child.Leveled

/-- The second request is the first one but for levels, of which those that were missing may be
set to 4. -/
inductive LevelsSet : CalcRequest → CalcRequest → Prop
  | reference {id} : LevelsSet (.reference id) (.reference id)
  | value {v} : LevelsSet (.value v) (.value v)
  | function {account app name level level' args args'} :
      (level' = level ∨ level = none ∧ level' = some 4) → List.Forall₂ LevelsSet args args' →
      LevelsSet (.function account app name level args) (.function account app name level' args')
  | array {items items' itemSchema} : List.Forall₂ LevelsSet items items' →
      LevelsSet (.array items itemSchema) (.array items' itemSchema)
  | item {array array' index index' schema} : LevelsSet array array' → LevelsSet index index' →
      LevelsSet (.item array index schema) (.item array' index' schema)
  | object {properties properties' schema} :
      properties.map Prod.fst = properties'.map Prod.fst →
      List.Forall₂ LevelsSet (properties.map Prod.snd) (properties'.map Prod.snd) →
      LevelsSet (.object properties schema) (.object properties' schema)
  | property {object object' field field' schema} : LevelsSet object object' →
      LevelsSet field field' → LevelsSet (.property object field schema)
        (.property object' field' schema)
  | «let» {definitions definitions' body body'} :
      definitions.map Prod.fst = definitions'.map Prod.fst →
      List.Forall₂ LevelsSet (definitions.map Prod.snd) (definitions'.map Prod.snd) →
      LevelsSet body body' → LevelsSet (.let definitions body) (.let definitions' body')
  | «variable» {name} : LevelsSet (.variable name) (.variable name)
  | «meta» {generator generator' schema} : LevelsSet generator generator' →
      LevelsSet (.meta generator schema) (.meta generator' schema)
  | cast {schema object object'} : LevelsSet object object' →
      LevelsSet (.cast schema object) (.cast schema object')

variable {request child : CalcRequest}

theorem leveled_iff :
    request.Leveled ↔ request.HasLevel ∧ ∀ child ∈ request.children, child.Leveled :=
  forall_reached_iff

theorem copiesLeveled_iff :
    request.CopiesLeveled ↔ (∀ child ∈ request.copied, child.Leveled) ∧
      ∀ child ∈ request.children, child.CopiesLeveled :=
  forall_reached_iff

/-- The subrequests that the traversal goes into. -/
def sanitized : CalcRequest → List CalcRequest
  | .let definitions body => definitions.map Prod.snd ++ [body]
  | request => request.substituted

theorem mem_children : child ∈ request.children ↔ child ∈ request.sanitized ∨
    child ∈ request.copied := by
  cases request <;> simp [sanitized]

theorem Leveled.copiesLeveled (h : request.Leveled) : request.CopiesLeveled := by
  intro part hpart child hchild below hbelow
  exact h below (hpart.trans (.head (mem_children.mpr (.inr hchild)) hbelow))

theorem LevelsSet.refl (request : CalcRequest) : LevelsSet request request := by
  induction request using childInduction with
  | step request ih =>
      have hmem : ∀ requests : List CalcRequest, (∀ r ∈ requests, r ∈ request.children) →
          List.Forall₂ LevelsSet requests requests :=
        fun requests hrequests => List.forall₂_same.mpr fun r hr => ih r (hrequests r hr)
      cases request with
      | reference id => exact .reference
      | value v => exact .value
      | function account app name level args =>
          exact .function (.inl rfl) (hmem args (by simp))
      | array items itemSchema => exact .array (hmem items (by simp))
      | item array index schema => exact .item (ih _ (by simp)) (ih _ (by simp))
      | object properties schema => exact .object rfl (hmem _ (by simp))
      | property object field schema => exact .property (ih _ (by simp)) (ih _ (by simp))
      | «let» definitions body => exact .let rfl (hmem _ fun r hr => List.mem_append_left [body] hr) (ih _ (by simp))
      | «variable» name => exact .variable
      | «meta» generator schema => exact .meta (ih _ (by simp))
      | cast schema object => exact .cast (ih _ (by simp))

end CalcRequest

/-! ## What the traversal does -/

section
variable {request : CalcRequest}

/-- Apart from levels the request stays as it is. -/
theorem levelsSet_sanitizeRequest (request : CalcRequest) :
    request.LevelsSet (sanitizeRequest request) := by
  induction request using CalcRequest.childInduction with
  | step request ih =>
      have hmap : ∀ requests : List CalcRequest, (∀ r ∈ requests, r ∈ request.children) →
          List.Forall₂ CalcRequest.LevelsSet requests (requests.map sanitizeRequest) :=
        fun requests hrequests => List.forall₂_map_right_iff.mpr
          (List.forall₂_same.mpr fun r hr => ih r (hrequests r hr))
      cases request with
      | reference id => exact .reference
      | value v => exact .value
      | function account app name level args =>
          rw [sanitizeRequest, sanitizeAll_eq_map]
          refine .function ?_ (hmap args (by simp))
          cases level with
          | none => exact .inr ⟨rfl, rfl⟩
          | some level => exact .inl rfl
      | array items itemSchema =>
          rw [sanitizeRequest, sanitizeAll_eq_map]
          exact .array (hmap items (by simp))
      | item array index schema => exact .item (ih _ (by simp)) (.refl index)
      | object properties schema =>
          refine .object map_fst_sanitizeEntries.symm ?_
          rw [map_snd_sanitizeEntries]
          exact hmap _ (by simp)
      | property object field schema => exact .property (ih _ (by simp)) (.refl field)
      | «let» definitions body =>
          refine .let map_fst_sanitizeEntries.symm ?_ (ih _ (by simp))
          rw [map_snd_sanitizeEntries]
          exact hmap _ fun r hr => List.mem_append_left [body] hr
      | «variable» name => exact .variable
      | «meta» generator schema => exact .meta (ih _ (by simp))
      | cast schema object => exact .cast (ih _ (by simp))

/-- A second traversal changes nothing. -/
theorem sanitizeRequest_sanitizeRequest (request : CalcRequest) :
    sanitizeRequest (sanitizeRequest request) = sanitizeRequest request := by
  induction request using CalcRequest.childInduction with
  | step request ih =>
      have hall : ∀ requests : List CalcRequest, (∀ r ∈ requests, r ∈ request.children) →
          sanitizeAll (sanitizeAll requests) = sanitizeAll requests := by
        intro requests hrequests
        rw [sanitizeAll_eq_map, sanitizeAll_eq_map, List.map_map]
        exact List.map_congr_left fun r hr => ih r (hrequests r hr)
      have hentries : ∀ entries : List (Bytes × CalcRequest),
          (∀ entry ∈ entries, entry.2 ∈ request.children) →
          sanitizeEntries (sanitizeEntries entries) = sanitizeEntries entries := by
        intro entries hentries
        rw [sanitizeEntries_eq_map, sanitizeEntries_eq_map, List.map_map]
        exact List.map_congr_left fun entry hentry =>
          congrArg (Prod.mk entry.1) (ih entry.2 (hentries entry hentry))
      cases request with
      | reference | value | «variable» => rfl
      | function account app name level args =>
          simp only [sanitizeRequest, Option.getD_some, hall args (by simp)]
      | array items itemSchema => simp only [sanitizeRequest, hall items (by simp)]
      | item array index schema => simp only [sanitizeRequest, ih array (by simp)]
      | object properties schema =>
          simp only [sanitizeRequest]
          rw [hentries properties fun entry hentry => List.mem_map_of_mem hentry]
      | property object field schema => simp only [sanitizeRequest, ih object (by simp)]
      | «let» definitions body =>
          simp only [sanitizeRequest, ih body (by simp)]
          rw [hentries definitions fun entry hentry =>
            List.mem_append_left [body] (List.mem_map_of_mem hentry)]
      | «meta» generator schema => simp only [sanitizeRequest, ih generator (by simp)]
      | cast schema object => simp only [sanitizeRequest, ih object (by simp)]

theorem hasLevel_sanitizeRequest (request : CalcRequest) : (sanitizeRequest request).HasLevel := by
  cases request <;> simp [sanitizeRequest, CalcRequest.HasLevel]

theorem copied_sanitizeRequest (request : CalcRequest) :
    (sanitizeRequest request).copied = request.copied := by
  cases request <;> simp [sanitizeRequest]

theorem sanitized_sanitizeRequest (request : CalcRequest) :
    (sanitizeRequest request).sanitized = request.sanitized.map sanitizeRequest := by
  cases request <;>
    simp [sanitizeRequest, CalcRequest.sanitized, sanitizeAll_eq_map, map_snd_sanitizeEntries]

/-- The traversal leaves an application without a level only in what it copies. -/
theorem leveled_sanitizeRequest_iff : (sanitizeRequest request).Leveled ↔ request.CopiesLeveled := by
  induction request using CalcRequest.childInduction with
  | step request ih =>
      have hparts : (∀ part ∈ request.sanitized, (sanitizeRequest part).Leveled) ↔
          ∀ part ∈ request.sanitized, part.CopiesLeveled :=
        forall₂_congr fun part hpart => ih part (CalcRequest.mem_children.mpr (.inl hpart))
      have hcopied : (∀ child ∈ request.copied, child.Leveled) →
          ∀ child ∈ request.copied, child.CopiesLeveled :=
        fun h child hchild => (h child hchild).copiesLeveled
      rw [CalcRequest.leveled_iff, CalcRequest.copiesLeveled_iff]
      simp only [CalcRequest.mem_children, sanitized_sanitizeRequest, copied_sanitizeRequest,
        hasLevel_sanitizeRequest, true_and, or_imp, forall_and, List.forall_mem_map, hparts]
      tauto

/-- What the traversal is for: every function application has a level, those that had one keep
it, and nothing else changes. -/
structure Sanitized (request sanitized : CalcRequest) : Prop where
  leveled : sanitized.Leveled
  levelsSet : request.LevelsSet sanitized

/-- The traversal does what it is for, and a second one would do nothing more, exactly if no
application without a level is within the index of an ITEM or the field of a PROPERTY. -/
theorem sanitizeRequest_sanitized_iff (request : CalcRequest) :
    (Sanitized request (sanitizeRequest request) ∧
      sanitizeRequest (sanitizeRequest request) = sanitizeRequest request) ↔
    request.CopiesLeveled := by
  constructor
  · rintro ⟨h, -⟩
    exact leveled_sanitizeRequest_iff.mp h.leveled
  · intro h
    exact ⟨⟨leveled_sanitizeRequest_iff.mpr h, levelsSet_sanitizeRequest request⟩,
      sanitizeRequest_sanitizeRequest request⟩

end

/-- The item of an array whose index is a function application. -/
def computedIndex : CalcRequest :=
  .item (.reference [0x61]) (.function [] [] [0x66] none []) .dynamic

theorem not_sanitizeRequest_sanitized :
    ¬ ∀ request, Sanitized request (sanitizeRequest request) ∧
      sanitizeRequest (sanitizeRequest request) = sanitizeRequest request := by
  intro h
  have hindex := (h computedIndex).1.leveled (.function [] [] [0x66] none [])
    (.single (by simp [computedIndex, sanitizeRequest]))
  cases hindex

end Cradle.Thinknode
