import Cradle.Lib.MemoSearchWaits
import Cradle.Typing.Conformance
import Cradle.Websocket.TypeReferences

/-!
# Deep copies of ISS objects

An object is copied to the bucket of the destination, and so are the objects that its references
lead to.  The value is only looked at if its type contains references.  A copy that has completed
is remembered, and whoever asks for one that is under way waits for it.
-/

namespace Cradle

open MemoSearch

section
variable (lookUpNamedType : ApiNamedTypeReference → Except CoercionException ApiTypeInfo)

/-- `visit_object_references`, with the references in the order in which they are visited. -/
def visitObjectReferences : ℕ → ApiTypeInfo → Dynamic → Coercing (List Bytes)
  | 0, _, _ => Bounded.exhausted
  | fuel + 1, type, value =>
    let recurse := visitObjectReferences fuel
    match type with
    | .array _ elementSchema => do
        let items ← castArray value
        let refs ← items.mapM (recurse elementSchema)
        return refs.flatten
    | .map keySchema valueSchema => do
        let map ← castMap value
        let refs ← map.mapM fun (key, value) => do
          let keyRefs ← recurse keySchema key
          let valueRefs ← recurse valueSchema value
          return keyRefs ++ valueRefs
        return refs.flatten
    | .named ref => do
        let typeInfo ← Bounded.ofExcept (lookUpNamedType ref)
        recurse typeInfo value
    | .optional schema => do
        let map ← castMap value
        let tag ← castString (← getUnionTag map)
        if tag = someTag then do
          let content ← getField map someTag
          recurse schema content
        else return []
    | .reference _ => do
        let ref ← castString value
        return [ref]
    | .structure fields => do
        let map ← castMap value
        let refs ← fields.mapM fun (fieldName, fieldInfo) =>
          match Dynamic.findField map (.string fieldName) with
          | some fieldValue => recurse fieldInfo.schema fieldValue
          | none => return []
        return refs.flatten
    | .union members => do
        let map ← castMap value
        let tag ← castString (← getUnionTag map)
        match members.find? fun member => tag = member.1 with
        | some (_, memberInfo) => do
            let content ← getField map tag
            recurse memberInfo.schema content
        -- `std::map::at` throws
        | none => throw (.other tag)
    | .blob | .boolean | .datetime | .dynamic | .enum _ | .float | .integer | .nil | .string
    | .function | .record => return []

end

/-! ## References of values -/

section
variable {l : ApiNamedTypeReference → Except CoercionException ApiTypeInfo} {fuel : ℕ}
  {t : ApiTypeInfo} {v : Dynamic} {refs : List Bytes} {ref : Bytes}

/-- A part of the value is a reference. -/
def RefersTo (l : ApiNamedTypeReference → Except CoercionException ApiTypeInfo) (t : ApiTypeInfo)
    (v : Dynamic) (ref : Bytes) : Prop :=
  ∃ schema, Relation.ReflTransGen (Visits l) (t, v) (.reference schema, .string ref)

theorem Visits.part {x y : ApiTypeInfo × Dynamic} (h : Visits l x y) :
    ApiTypeInfo.Part l x.1 y.1 := by
  cases h with
  | item => exact .element
  | key => exact .key
  | value => exact .value
  | content => exact .content
  | field hf => exact .field hf
  | member hm => exact .member (List.mem_of_find?_eq_some hm)
  | resolved hl => exact .resolved hl

/-- There are no references in a value whose type has none. -/
theorem RefersTo.containsReference (h : RefersTo l t v ref) :
    ContainsReference l t := by
  obtain ⟨schema, hpath⟩ := h
  exact ⟨schema, hpath.lift Prod.fst fun _ _ h => h.part⟩

/-- A value whose type is none of a reference refers to what its parts refer to. -/
theorem refersTo_iff (ht : ∀ schema, t ≠ .reference schema) :
    RefersTo l t v ref ↔ ∃ s w, Visits l (t, v) (s, w) ∧ RefersTo l s w ref := by
  constructor
  · rintro ⟨schema, hpath⟩
    rcases hpath.cases_head with heq | ⟨⟨s, w⟩, hstep, hrest⟩
    · cases heq
      exact absurd rfl (ht schema)
    · exact ⟨s, w, hstep, schema, hrest⟩
  · rintro ⟨s, w, hstep, schema, hrest⟩
    exact ⟨schema, .head hstep hrest⟩

theorem refersTo_array {size : Option ℤ} {items : List Dynamic} :
    RefersTo l (.array size t) (.array items) ref ↔ ∃ x ∈ items, RefersTo l t x ref := by
  rw [refersTo_iff (by simp)]
  constructor
  · rintro ⟨s, w, hvisits, href⟩
    cases hvisits with
    | item hx => exact ⟨_, hx, href⟩
  · rintro ⟨x, hx, href⟩
    exact ⟨t, x, .item hx, href⟩

theorem refersTo_map {k : ApiTypeInfo} {m : List (Dynamic × Dynamic)} :
    RefersTo l (.map k t) (.map m) ref ↔
      ∃ f ∈ m, RefersTo l k f.1 ref ∨ RefersTo l t f.2 ref := by
  rw [refersTo_iff (by simp)]
  constructor
  · rintro ⟨s, w, hvisits, href⟩
    cases hvisits with
    | key hf => exact ⟨_, hf, .inl href⟩
    | value hf => exact ⟨_, hf, .inr href⟩
  · rintro ⟨f, hf, href | href⟩
    · exact ⟨k, f.1, .key hf, href⟩
    · exact ⟨t, f.2, .value hf, href⟩

theorem refersTo_named {name : ApiNamedTypeReference} (hl : l name = .ok t) :
    RefersTo l (.named name) v ref ↔ RefersTo l t v ref := by
  rw [refersTo_iff (by simp)]
  constructor
  · rintro ⟨s, w, hvisits, href⟩
    cases hvisits with
    | resolved hl' =>
        rw [hl] at hl'
        cases hl'
        exact href
  · intro href
    exact ⟨t, v, .resolved hl, href⟩

theorem refersTo_optional {tag : Bytes} {x : Dynamic} :
    RefersTo l (.optional t) (.map [(.string tag, x)]) ref ↔
      tag = someTag ∧ RefersTo l t x ref := by
  rw [refersTo_iff (by simp)]
  constructor
  · rintro ⟨s, w, hvisits, href⟩
    cases hvisits with
    | content => exact ⟨rfl, href⟩
  · rintro ⟨rfl, href⟩
    exact ⟨t, x, .content, href⟩

theorem refersTo_reference : RefersTo l (.reference t) v ref ↔ v = .string ref := by
  constructor
  · rintro ⟨schema, hpath⟩
    rcases hpath.cases_head with heq | ⟨_, hstep, -⟩
    · cases heq
      rfl
    · cases hstep
  · rintro rfl
    exact ⟨t, .refl⟩

theorem refersTo_structure {fields : List (Bytes × ApiStructureFieldInfo ApiTypeInfo)}
    {m : List (Dynamic × Dynamic)} :
    RefersTo l (.structure fields) (.map m) ref ↔ ∃ f ∈ fields, ∃ x,
      Dynamic.findField m (.string f.1) = some x ∧ RefersTo l f.2.schema x ref := by
  rw [refersTo_iff (by simp)]
  constructor
  · rintro ⟨s, w, hvisits, href⟩
    cases hvisits with
    | field hf hx => exact ⟨_, hf, _, hx, href⟩
  · rintro ⟨f, hf, x, hx, href⟩
    exact ⟨_, x, .field hf hx, href⟩

theorem refersTo_union {members : List (Bytes × ApiUnionMemberInfo ApiTypeInfo)} {tag : Bytes}
    {m : Bytes × ApiUnionMemberInfo ApiTypeInfo} {x : Dynamic}
    (hm : members.find? (fun member => tag = member.1) = some m) :
    RefersTo l (.union members) (.map [(.string tag, x)]) ref ↔ RefersTo l m.2.schema x ref := by
  rw [refersTo_iff (by simp)]
  constructor
  · rintro ⟨s, w, hvisits, href⟩
    cases hvisits with
    | member hm' =>
        rw [hm] at hm'
        cases hm'
        exact href
  · intro href
    exact ⟨_, x, .member hm, href⟩

/-- What is visited in the parts of a value. -/
theorem mem_visited {α : Type} {xs : List α} {f : α → Coercing (List Bytes)} {P : α → Bytes → Prop}
    (hf : ∀ x ∈ xs, ∀ rs, (f x).Returns rs → ∀ ref, ref ∈ rs ↔ P x ref)
    (h : (do let rs ← xs.mapM f
             return rs.flatten : Coercing (List Bytes)).Returns refs) (ref : Bytes) :
    ref ∈ refs ↔ ∃ x ∈ xs, P x ref := by
  simp only [Bounded.returns_bind, Bounded.mapM_returns, Bounded.returns_pure] at h
  obtain ⟨rss, hall, rfl⟩ := h
  rw [List.mem_flatten]
  constructor
  · rintro ⟨rs, hrs, href⟩
    obtain ⟨x, hx, hreturns⟩ := hall.exists_of_mem_right hrs
    exact ⟨x, hx, (hf x hx rs hreturns ref).mp href⟩
  · rintro ⟨x, hx, hP⟩
    obtain ⟨rs, hrs, hreturns⟩ := hall.exists_of_mem_left hx
    exact ⟨rs, hrs, (hf x hx rs hreturns ref).mpr hP⟩

/-- The references that are visited are those in the value. -/
theorem mem_visitObjectReferences (h : (visitObjectReferences l fuel t v).Returns refs)
    (ref : Bytes) : ref ∈ refs ↔ RefersTo l t v ref := by
  induction fuel generalizing t v refs ref with
  | zero => exact absurd h Bounded.not_returns_exhausted
  | succ fuel ih =>
      cases t with
      | array size e =>
          simp only [visitObjectReferences] at h
          obtain ⟨items, hitems, h⟩ := Bounded.returns_bind.mp h
          obtain rfl := returns_castArray.mp hitems
          rw [mem_visited (fun x _ rs hrs ref => ih hrs ref) h, refersTo_array]
      | map k e =>
          simp only [visitObjectReferences] at h
          obtain ⟨m, hm, h⟩ := Bounded.returns_bind.mp h
          obtain rfl := returns_castMap.mp hm
          rw [refersTo_map, mem_visited ?_ h]
          intro f _ rs hrs ref
          simp only [Bounded.returns_bind, Bounded.returns_pure] at hrs
          obtain ⟨ks, hks, vs, hvs, rfl⟩ := hrs
          rw [List.mem_append, ih hks, ih hvs]
      | named name =>
          simp only [visitObjectReferences] at h
          obtain ⟨resolved, hl, h⟩ := Bounded.returns_bind.mp h
          rw [Bounded.returns_ofExcept] at hl
          rw [ih h, refersTo_named hl]
      | optional e =>
          simp only [visitObjectReferences] at h
          replace h := returns_tag.mp h
          obtain ⟨tag, x, rfl, h⟩ := h
          rw [refersTo_optional]
          split at h
          · next hsome =>
              subst hsome
              simp only [Bounded.returns_bind, returns_getField, findField_cons_self,
                Option.some.injEq] at h
              obtain ⟨_, rfl, h⟩ := h
              rw [ih h, eq_self, true_and]
          · next hnone =>
              obtain rfl := Bounded.returns_pure.mp h
              simp [hnone]
      | reference schema =>
          simp only [visitObjectReferences, Bounded.returns_bind, returns_castString,
            Bounded.returns_pure] at h
          obtain ⟨s, rfl, rfl⟩ := h
          rw [List.mem_singleton, refersTo_reference, Dynamic.string.injEq, eq_comm]
      | «structure» fields =>
          simp only [visitObjectReferences] at h
          obtain ⟨m, hm, h⟩ := Bounded.returns_bind.mp h
          obtain rfl := returns_castMap.mp hm
          rw [refersTo_structure, mem_visited ?_ h]
          rintro ⟨name, info⟩ _ rs hrs ref
          cases hfind : Dynamic.findField m (.string name) with
          | some x =>
              simp only [hfind] at hrs
              simp [ih hrs]
          | none =>
              simp only [hfind, Bounded.returns_pure] at hrs
              subst hrs
              simp
      | union members =>
          simp only [visitObjectReferences] at h
          replace h := returns_tag.mp h
          obtain ⟨tag, x, rfl, h⟩ := h
          cases hfind : members.find? fun member => tag = member.1 with
          | none => simp [hfind] at h
          | some member =>
              simp only [hfind, Bounded.returns_bind, returns_getField, findField_cons_self,
                Option.some.injEq] at h
              obtain ⟨_, rfl, h⟩ := h
              rw [ih h, refersTo_union hfind]
      | _ =>
          simp only [visitObjectReferences, Bounded.returns_pure] at h
          subst h
          rw [refersTo_iff (by simp)]
          constructor
          · intro href
            cases href
          · rintro ⟨s, w, hvisits, -⟩
            cases hvisits

end

/-! ## The copies -/

/-- What is known of the objects of the source: their types and values. -/
abbrev IssObjects := Bytes → Option (ApiTypeInfo × Dynamic)

section
variable {ι : Type*}
  (lookUpNamedType : ApiNamedTypeReference → Except CoercionException ApiTypeInfo) (fuel : ℕ)
  (objects : IssObjects)

/-- `deeply_copy_iss_object`: to open an object is to copy it and to get its metadata; on the
occasion `i`, `type_contains_references` answers `answer i`.  Then the copy goes on with the
references, which start in any order, since the names of types are looked up on the way. -/
def deeplyCopyIssObject (answer : ι → ApiTypeInfo → Option Bool) : MemoSearch.Graph ι Bytes where
  next := fun i objectId => do
    let (objectType, object) ← objects objectId
    let containsReferences ← answer i objectType
    if containsReferences then
      match (visitObjectReferences lookUpNamedType fuel objectType object).run with
      | some (.ok refs) => some refs
      | _ => none
    else some []
  goal := fun _ => false
  once := false
  inOrder := false

/-- The object has a reference to another. -/
def References (objectId ref : Bytes) : Prop :=
  ∃ objectType object, objects objectId = some (objectType, object) ∧
    RefersTo lookUpNamedType objectType object ref

end

section
variable {ι : Type*} {l : ApiNamedTypeReference → Except CoercionException ApiTypeInfo}
  {fuel : ℕ} {objects : IssObjects} {answer : ι → ApiTypeInfo → Option Bool}

/-- Where `type_contains_references` is right when it says no, the copy goes on with all
references of the object, and with these only. -/
theorem mem_next_iff (hanswer : ∀ i t, answer i t = some false → ¬ ContainsReference l t) {i : ι}
    {objectId : Bytes} {refs : List Bytes}
    (h : (deeplyCopyIssObject l fuel objects answer).next i objectId = some refs) (ref : Bytes) :
    ref ∈ refs ↔ References l objects objectId ref := by
  simp only [deeplyCopyIssObject, Option.bind_eq_bind, Option.bind_eq_some_iff] at h
  obtain ⟨⟨objectType, object⟩, hobject, b, hb, h⟩ := h
  have hrefers : References l objects objectId ref ↔ RefersTo l objectType object ref := by
    constructor
    · rintro ⟨_, _, hobject', href⟩
      rw [hobject] at hobject'
      cases hobject'
      exact href
    · intro href
      exact ⟨objectType, object, hobject, href⟩
  rw [hrefers]
  cases b with
  | true =>
      rw [if_pos rfl] at h
      split at h
      · next hvisit =>
          cases h
          exact mem_visitObjectReferences hvisit ref
      · cases h
  | false =>
      cases h
      refine ⟨fun href => (by cases href), fun href => ?_⟩
      exact absurd href.containsReference (hanswer i objectType hb)

/-- All that the object leads to has been copied. -/
def DeeplyCopied (l : ApiNamedTypeReference → Except CoercionException ApiTypeInfo)
    (objects : IssObjects) (copied : List Bytes) (objectId : Bytes) : Prop :=
  ∀ ref, Relation.ReflTransGen (References l objects) objectId ref → ref ∈ copied

theorem justified_deeplyCopied
    (hanswer : ∀ i t, answer i t = some false → ¬ ContainsReference l t) :
    Justified (deeplyCopyIssObject l fuel objects answer)
      fun copied objectId _ => DeeplyCopied l objects copied objectId where
  grow := fun hsub h ref href => hsub (h ref href)
  revisit := fun honce => (by cases honce)
  conclude := by
    intro copied i objectId refs b hnext hcopied hrefs _ ref hpath
    rcases hpath.cases_head with rfl | ⟨next, hstep, hrest⟩
    · exact hcopied
    · obtain ⟨_, hdeep, -⟩ := hrefs next ((mem_next_iff hanswer hnext next).mpr hstep)
      exact hdeep ref hrest

/-- However many copies there are, and however they interleave, fail and share what they do: one
that has completed has copied the object and all that its references lead to. -/
theorem deeplyCopied_of_completed
    (hanswer : ∀ i t, answer i t = some false → ¬ ContainsReference l t) {w : World Bytes}
    (h : Transition.Reachable (World.step (deeplyCopyIssObject l fuel objects answer))
      (fun _ _ => True) {⟨.ofAnswers fun _ => none, []⟩} w) :
    (∀ objectId b, w.memory.entry objectId = .ready b →
      DeeplyCopied l objects w.memory.opened objectId) ∧
      ∀ s ∈ w.searches, ∀ b, s.task.result = some (some b) →
        DeeplyCopied l objects w.memory.opened s.root := by
  have hfits := World.Fits.reachable (justified_deeplyCopied hanswer) (World.Fits.empty _) h
  exact ⟨hfits.memory.entry, fun s hs b hb => hfits.answer hs hb⟩

theorem references_of_edge {objectId ref : Bytes}
    (h : (deeplyCopyIssObject l fuel objects answer).Edge objectId ref) :
    References l objects objectId ref := by
  obtain ⟨i, refs, hnext, href⟩ := h
  simp only [deeplyCopyIssObject, Option.bind_eq_bind, Option.bind_eq_some_iff] at hnext
  obtain ⟨⟨objectType, object⟩, hobject, b, -, hnext⟩ := hnext
  cases b with
  | true =>
      rw [if_pos rfl] at hnext
      split at hnext
      · next hvisit =>
          cases hnext
          exact ⟨objectType, object, hobject, (mem_visitObjectReferences hvisit ref).mp href⟩
      · cases hnext
  | false =>
      cases hnext
      cases href

def linkedObjects : IssObjects
  | [1] => some (.array none (.reference .string), .array [.string [2]])
  | [2] => some (.string, .string [120])
  | _ => none

def copyGraph : MemoSearch.Graph Unit Bytes :=
  deeplyCopyIssObject (fun _ => .error (.other [])) 5 linkedObjects fun _ _ => some true

/-- Two copies of the same object, one of which waits. -/
def copyActions : List (Action Unit Bytes) :=
  [.ask [1], .resume 0 [] none, .ask [1], .resume 1 [] none, .resume 0 [] (some ())]

def copyActions' : List (Action Unit Bytes) :=
  copyActions ++ [.resume 0 [0] none, .resume 0 [0] (some ()), .resume 0 [0] none,
    .resume 0 [] none, .resume 1 [] none]

theorem deeplyCopied_linked :
    ((Transition.run (World.step copyGraph) ⟨.ofAnswers fun _ => none, []⟩ copyActions').map
      fun w => (w.memory.opened, w.memory.entry [1])) = some ([[2], [1]], .ready false) ∧
      DeeplyCopied (fun _ => .error (.other [])) linkedObjects [[2], [1]] [1] := by
  have h : ((Transition.run (World.step copyGraph) ⟨.ofAnswers fun _ => none, []⟩
      copyActions').map fun w => (w.memory.opened, w.memory.entry [1])) =
        some ([[2], [1]], .ready false) := by decide +kernel
  obtain ⟨w, hrun, hw⟩ := Option.map_eq_some_iff.mp h
  obtain ⟨hopened, hentry⟩ := Prod.mk.inj hw
  have hdeep := (deeplyCopied_of_completed (fun i t h => by cases h)
    ((Transition.Reachable.start (Set.mem_singleton _)).run hrun)).1 [1] false hentry
  rw [hopened] at hdeep
  exact ⟨h, hdeep⟩

theorem references_linked {objectId ref : Bytes}
    (h : References (fun _ => .error (.other [])) linkedObjects objectId ref) :
    objectId = [1] ∧ ref = [2] := by
  obtain ⟨objectType, object, hobject, href⟩ := h
  unfold linkedObjects at hobject
  split at hobject
  · cases hobject
    obtain ⟨x, hx, href⟩ := refersTo_array.mp href
    obtain rfl := List.mem_singleton.mp hx
    exact ⟨rfl, (Dynamic.string.inj (refersTo_reference.mp href)).symm⟩
  · cases hobject
    obtain ⟨schema, hpath⟩ := href.containsReference
    rcases hpath.cases_head with heq | ⟨_, hstep, -⟩
    · cases heq
    · cases hstep
  · cases hobject

theorem wellFounded_linked :
    WellFounded fun ref objectId =>
      References (fun _ => .error (.other [])) linkedObjects objectId ref := by
  have hlast (ref : Bytes) (hne : ref ≠ [1]) : Acc (fun ref objectId =>
      References (fun _ => .error (.other [])) linkedObjects objectId ref) ref :=
    .intro ref fun _ h => absurd (references_linked h).1 hne
  refine ⟨fun objectId => .intro objectId fun ref h => hlast ref ?_⟩
  rw [(references_linked h).2]
  decide

end

end Cradle
