import Cradle.Lib.MemoSearchAlone
import Cradle.Typing.Schema

/-!
# Types that contain references

`typeContainsReferences` looks into a type and the types that its names stand for.  Its answers
are cached, so those for the parts of a type are used again by later calls.
-/

namespace Cradle

open MemoSearch

/-! ## Comparing types -/

mutual

/-- Two types are the same. -/
def ApiTypeInfo.same : ApiTypeInfo → ApiTypeInfo → Bool
  | .nil, .nil => true
  | .boolean, .boolean => true
  | .integer, .integer => true
  | .float, .float => true
  | .string, .string => true
  | .datetime, .datetime => true
  | .blob, .blob => true
  | .dynamic, .dynamic => true
  | .structure fields, .structure fields' => sameFields fields fields'
  | .union members, .union members' => sameMembers members members'
  | .enum values, .enum values' => values == values'
  | .map k t, .map k' t' => k.same k' && t.same t'
  | .array size t, .array size' t' => size == size' && t.same t'
  | .optional t, .optional t' => t.same t'
  | .reference t, .reference t' => t.same t'
  | .named ref, .named ref' => ref == ref'
  | .function, .function => true
  | .record, .record => true
  | _, _ => false

def sameFields :
    List (Bytes × ApiStructureFieldInfo ApiTypeInfo) →
      List (Bytes × ApiStructureFieldInfo ApiTypeInfo) → Bool
  | [], [] => true
  | (name, ⟨t, omissible⟩) :: fields, (name', ⟨t', omissible'⟩) :: fields' =>
      name == name' && omissible == omissible' && t.same t' && sameFields fields fields'
  | _, _ => false

def sameMembers :
    List (Bytes × ApiUnionMemberInfo ApiTypeInfo) →
      List (Bytes × ApiUnionMemberInfo ApiTypeInfo) → Bool
  | [], [] => true
  | (name, ⟨t⟩) :: members, (name', ⟨t'⟩) :: members' =>
      name == name' && t.same t' && sameMembers members members'
  | _, _ => false

end

mutual

theorem ApiTypeInfo.same_iff : ∀ s t : ApiTypeInfo, s.same t = true ↔ s = t
  | .structure fields, t => by cases t <;> simp [ApiTypeInfo.same, sameFields_iff fields]
  | .union members, t => by cases t <;> simp [ApiTypeInfo.same, sameMembers_iff members]
  | .map k v, t => by
      cases t <;> simp [ApiTypeInfo.same, ApiTypeInfo.same_iff k, ApiTypeInfo.same_iff v]
  | .array size e, t => by cases t <;> simp [ApiTypeInfo.same, ApiTypeInfo.same_iff e]
  | .optional s, t => by cases t <;> simp [ApiTypeInfo.same, ApiTypeInfo.same_iff s]
  | .reference s, t => by cases t <;> simp [ApiTypeInfo.same, ApiTypeInfo.same_iff s]
  | .enum values, t => by cases t <;> simp [ApiTypeInfo.same]
  | .named ref, t => by cases t <;> simp [ApiTypeInfo.same]
  | .nil, t => by cases t <;> simp [ApiTypeInfo.same]
  | .boolean, t => by cases t <;> simp [ApiTypeInfo.same]
  | .integer, t => by cases t <;> simp [ApiTypeInfo.same]
  | .float, t => by cases t <;> simp [ApiTypeInfo.same]
  | .string, t => by cases t <;> simp [ApiTypeInfo.same]
  | .datetime, t => by cases t <;> simp [ApiTypeInfo.same]
  | .blob, t => by cases t <;> simp [ApiTypeInfo.same]
  | .dynamic, t => by cases t <;> simp [ApiTypeInfo.same]
  | .function, t => by cases t <;> simp [ApiTypeInfo.same]
  | .record, t => by cases t <;> simp [ApiTypeInfo.same]

theorem sameFields_iff :
    ∀ fields fields' : List (Bytes × ApiStructureFieldInfo ApiTypeInfo),
      sameFields fields fields' = true ↔ fields = fields'
  | [], fields' => by cases fields' <;> simp [sameFields]
  | (name, ⟨t, omissible⟩) :: fields, fields' => by
      cases fields' with
      | nil => simp [sameFields]
      | cons f fields' =>
          obtain ⟨name', t', omissible'⟩ := f
          simp only [sameFields, Bool.and_eq_true, beq_iff_eq, ApiTypeInfo.same_iff t t',
            sameFields_iff fields fields', List.cons.injEq, Prod.mk.injEq,
            ApiStructureFieldInfo.mk.injEq]
          tauto

theorem sameMembers_iff :
    ∀ members members' : List (Bytes × ApiUnionMemberInfo ApiTypeInfo),
      sameMembers members members' = true ↔ members = members'
  | [], members' => by cases members' <;> simp [sameMembers]
  | (name, ⟨t⟩) :: members, members' => by
      cases members' with
      | nil => simp [sameMembers]
      | cons m members' =>
          obtain ⟨name', ⟨t'⟩⟩ := m
          simp only [sameMembers, Bool.and_eq_true, beq_iff_eq, ApiTypeInfo.same_iff t t',
            sameMembers_iff members members', List.cons.injEq, Prod.mk.injEq,
            ApiUnionMemberInfo.mk.injEq]

end

instance : DecidableEq ApiTypeInfo := fun s t => decidable_of_iff _ (ApiTypeInfo.same_iff s t)

/-! ## The types of a type -/

section
variable (lookUpNamedType : ApiNamedTypeReference → Except CoercionException ApiTypeInfo)

/-- The types that `uncached::type_contains_references` recurses on; it throws where the name
cannot be looked up. -/
def recursedTypes : ApiTypeInfo → Option (List ApiTypeInfo)
  | .array _ elementSchema => some [elementSchema]
  | .map keySchema valueSchema => some [keySchema, valueSchema]
  | .named ref =>
      match lookUpNamedType ref with
      | .ok type => some [type]
      | .error _ => none
  | .optional schema => some [schema]
  | .structure fields => some (fields.map (·.2.schema))
  | .union members => some (members.map (·.2.schema))
  | .blob | .boolean | .datetime | .dynamic | .enum _ | .float | .integer | .nil | .reference _
  | .string | .function | .record => some []

def isReferenceType : ApiTypeInfo → Bool
  | .reference _ => true
  | _ => false

/-- `type_contains_references` is a search for a reference type: `already_visited` is the list
of the types that it has met, and `fully_cached` keeps the answers. -/
def typeContainsReferences : MemoSearch.Graph Unit ApiTypeInfo where
  next := fun _ => recursedTypes lookUpNamedType
  goal := isReferenceType
  once := true
  inOrder := true

/-- A reference type is part of the type. -/
def ContainsReference (type : ApiTypeInfo) : Prop :=
  ∃ schema, Relation.ReflTransGen (ApiTypeInfo.Part lookUpNamedType) type (.reference schema)

end

section
variable {l : ApiNamedTypeReference → Except CoercionException ApiTypeInfo} {s t : ApiTypeInfo}

theorem mem_recursedTypes :
    (∃ types, recursedTypes l t = some types ∧ s ∈ types) ↔ ApiTypeInfo.Part l t s := by
  constructor
  · rintro ⟨types, htypes, hs⟩
    unfold recursedTypes at htypes
    split at htypes
    case h_3 ref =>
      split at htypes
      · next type hl =>
          cases htypes
          obtain rfl := List.mem_singleton.mp hs
          exact .resolved hl
      · cases htypes
    all_goals
      cases htypes
    · obtain rfl := List.mem_singleton.mp hs
      exact .element
    · obtain rfl | hs := List.mem_cons.mp hs
      · exact .key
      · obtain rfl := List.mem_singleton.mp hs
        exact .value
    · obtain rfl := List.mem_singleton.mp hs
      exact .content
    · obtain ⟨f, hf, rfl⟩ := List.mem_map.mp hs
      exact .field hf
    · obtain ⟨m, hm, rfl⟩ := List.mem_map.mp hs
      exact .member hm
    all_goals cases hs
  · intro h
    cases h with
    | element => exact ⟨_, rfl, List.mem_cons_self⟩
    | key => exact ⟨_, rfl, List.mem_cons_self⟩
    | value => exact ⟨_, rfl, List.mem_cons_of_mem _ List.mem_cons_self⟩
    | content => exact ⟨_, rfl, List.mem_cons_self⟩
    | field hf => exact ⟨_, rfl, List.mem_map.mpr ⟨_, hf, rfl⟩⟩
    | member hm => exact ⟨_, rfl, List.mem_map.mpr ⟨_, hm, rfl⟩⟩
    | @resolved ref _ hl => exact ⟨[s], by simp only [recursedTypes, hl], List.mem_cons_self⟩

theorem edge_iff_part : (typeContainsReferences l).Edge t s ↔ ApiTypeInfo.Part l t s := by
  rw [← mem_recursedTypes]
  exact ⟨fun ⟨_, h⟩ => h, fun h => ⟨(), h⟩⟩

theorem isReferenceType_iff : isReferenceType t = true ↔ ∃ schema, t = .reference schema := by
  cases t <;> simp [isReferenceType]

theorem finds_iff : (typeContainsReferences l).Finds t ↔ ContainsReference l t := by
  have hedge : (typeContainsReferences l).Edge = ApiTypeInfo.Part l := by
    ext t s
    exact edge_iff_part
  unfold MemoSearch.Graph.Finds ContainsReference
  rw [hedge]
  constructor
  · rintro ⟨s, hpath, hgoal⟩
    obtain ⟨schema, rfl⟩ := isReferenceType_iff.mp hgoal
    exact ⟨schema, hpath⟩
  · rintro ⟨schema, hpath⟩
    exact ⟨_, hpath, rfl⟩

end

/-! ## Answers in any run -/

section
variable {l : ApiNamedTypeReference → Except CoercionException ApiTypeInfo}

/-- However many calls there are, and however they interleave, fail and share the cache, an
answer `true` is right. -/
theorem containsReference_of_answer {w : World ApiTypeInfo}
    (h : Transition.Reachable (World.step (typeContainsReferences l)) (fun _ _ => True)
      {⟨.ofAnswers fun _ => none, []⟩} w) :
    (∀ type, w.memory.entry type = .ready true → ContainsReference l type) ∧
      ∀ s ∈ w.searches, s.task.result = some (some true) → ContainsReference l s.root := by
  have hfits := World.Fits.reachable (justified_finds (typeContainsReferences l))
    (World.Fits.empty _) h
  refine ⟨fun type htype => ?_, fun s hs hanswer => ?_⟩
  · exact finds_iff.mp (hfits.memory.entry type true htype rfl)
  · exact finds_iff.mp (hfits.answer hs hanswer rfl)

/-- Two calls for one type, of which one waits for the answer of the other. -/
def sharingActions : List (Action Unit ApiTypeInfo) :=
  [.ask (.optional (.reference .string)), .resume 0 [] none, .ask (.optional (.reference .string)),
    .resume 1 [] none, .resume 0 [] (some ()), .resume 0 [0] none, .resume 0 [0] (some ()),
    .resume 0 [0] none, .resume 0 [] none, .resume 1 [] none]

theorem containsReference_of_sharedAnswer :
    ((Transition.run (World.step (typeContainsReferences fun _ => .error (.other [])))
      ⟨.ofAnswers fun _ => none, []⟩ sharingActions).map fun w =>
        w.searches.map (·.task.result)) = some [some (some true), some (some true)] ∧
      ContainsReference (fun _ => .error (.other [])) (.optional (.reference .string)) := by
  have h : ((Transition.run (World.step (typeContainsReferences fun _ => .error (.other [])))
      ⟨.ofAnswers fun _ => none, []⟩ sharingActions).map fun w =>
        (w.searches.map (·.task.result),
          w.memory.entry (.optional (.reference .string)) == .ready true)) =
        some ([some (some true), some (some true)], true) := by decide +kernel
  obtain ⟨w, hrun, hw⟩ := Option.map_eq_some_iff.mp h
  obtain ⟨hresults, hentry⟩ := Prod.mk.inj hw
  refine ⟨by rw [hrun, Option.map_some, hresults], ?_⟩
  exact (containsReference_of_answer
    ((Transition.Reachable.start (Set.mem_singleton _)).run hrun)).1 _ (beq_iff_eq.mp hentry)

end

/-! ## The types that a call can come to -/

mutual

/-- The type and the types that it is made of. -/
def ApiTypeInfo.subtypes : ApiTypeInfo → List ApiTypeInfo
  | .structure fields => .structure fields :: fieldSubtypes fields
  | .union members => .union members :: memberSubtypes members
  | .map k t => .map k t :: (k.subtypes ++ t.subtypes)
  | .array size t => .array size t :: t.subtypes
  | .optional t => .optional t :: t.subtypes
  | t => [t]

def fieldSubtypes : List (Bytes × ApiStructureFieldInfo ApiTypeInfo) → List ApiTypeInfo
  | [] => []
  | (_, ⟨t, _⟩) :: fields => t.subtypes ++ fieldSubtypes fields

def memberSubtypes : List (Bytes × ApiUnionMemberInfo ApiTypeInfo) → List ApiTypeInfo
  | [] => []
  | (_, ⟨t⟩) :: members => t.subtypes ++ memberSubtypes members

end

section
variable {l : ApiNamedTypeReference → Except CoercionException ApiTypeInfo} {s t : ApiTypeInfo}

theorem self_mem_subtypes (t : ApiTypeInfo) : t ∈ t.subtypes := by
  cases t <;> simp [ApiTypeInfo.subtypes]

theorem mem_fieldSubtypes {fields : List (Bytes × ApiStructureFieldInfo ApiTypeInfo)} :
    s ∈ fieldSubtypes fields ↔ ∃ f ∈ fields, s ∈ f.2.schema.subtypes := by
  induction fields with
  | nil => simp [fieldSubtypes]
  | cons f fields ih => simp [fieldSubtypes, ih]

theorem mem_memberSubtypes {members : List (Bytes × ApiUnionMemberInfo ApiTypeInfo)} :
    s ∈ memberSubtypes members ↔ ∃ m ∈ members, s ∈ m.2.schema.subtypes := by
  induction members with
  | nil => simp [memberSubtypes]
  | cons m members ih => simp [memberSubtypes, ih]

mutual

theorem subtypes_trans : ∀ t : ApiTypeInfo, ∀ s ∈ t.subtypes, s.subtypes ⊆ t.subtypes
  | .structure fields, s, hs => by
      rw [ApiTypeInfo.subtypes, List.mem_cons] at hs
      rcases hs with rfl | hs
      · exact List.Subset.refl _
      · exact List.subset_cons_of_subset _ (fieldSubtypes_trans fields s hs)
  | .union members, s, hs => by
      rw [ApiTypeInfo.subtypes, List.mem_cons] at hs
      rcases hs with rfl | hs
      · exact List.Subset.refl _
      · exact List.subset_cons_of_subset _ (memberSubtypes_trans members s hs)
  | .map k t, s, hs => by
      rw [ApiTypeInfo.subtypes, List.mem_cons, List.mem_append] at hs
      rcases hs with rfl | hs | hs
      · exact List.Subset.refl _
      · exact List.subset_cons_of_subset _
          (List.subset_append_of_subset_left _ (subtypes_trans k s hs))
      · exact List.subset_cons_of_subset _
          (List.subset_append_of_subset_right _ (subtypes_trans t s hs))
  | .array size t, s, hs => by
      rw [ApiTypeInfo.subtypes, List.mem_cons] at hs
      rcases hs with rfl | hs
      · exact List.Subset.refl _
      · exact List.subset_cons_of_subset _ (subtypes_trans t s hs)
  | .optional t, s, hs => by
      rw [ApiTypeInfo.subtypes, List.mem_cons] at hs
      rcases hs with rfl | hs
      · exact List.Subset.refl _
      · exact List.subset_cons_of_subset _ (subtypes_trans t s hs)
  | .nil, s, hs | .boolean, s, hs | .integer, s, hs | .float, s, hs | .string, s, hs
  | .datetime, s, hs | .blob, s, hs | .dynamic, s, hs | .enum _, s, hs | .reference _, s, hs
  | .named _, s, hs | .function, s, hs | .record, s, hs => by
      obtain rfl := List.mem_singleton.mp hs
      exact List.Subset.refl _

theorem fieldSubtypes_trans : ∀ fields : List (Bytes × ApiStructureFieldInfo ApiTypeInfo),
    ∀ s ∈ fieldSubtypes fields, s.subtypes ⊆ fieldSubtypes fields
  | [], s, hs => by cases hs
  | (_, ⟨t, _⟩) :: fields, s, hs => by
      rw [fieldSubtypes, List.mem_append] at hs
      rcases hs with hs | hs
      · exact List.subset_append_of_subset_left _ (subtypes_trans t s hs)
      · exact List.subset_append_of_subset_right _ (fieldSubtypes_trans fields s hs)

theorem memberSubtypes_trans : ∀ members : List (Bytes × ApiUnionMemberInfo ApiTypeInfo),
    ∀ s ∈ memberSubtypes members, s.subtypes ⊆ memberSubtypes members
  | [], s, hs => by cases hs
  | (_, ⟨t⟩) :: members, s, hs => by
      rw [memberSubtypes, List.mem_append] at hs
      rcases hs with hs | hs
      · exact List.subset_append_of_subset_left _ (subtypes_trans t s hs)
      · exact List.subset_append_of_subset_right _ (memberSubtypes_trans members s hs)

end

/-- The types that the names of `refs` stand for, and what these are made of. -/
def namedSubtypes (l : ApiNamedTypeReference → Except CoercionException ApiTypeInfo)
    (refs : List ApiNamedTypeReference) : List ApiTypeInfo :=
  refs.flatMap fun ref =>
    match l ref with
    | .ok t => t.subtypes
    | .error _ => []

theorem mem_namedSubtypes {refs : List ApiNamedTypeReference} :
    s ∈ namedSubtypes l refs ↔ ∃ ref ∈ refs, ∃ t, l ref = .ok t ∧ s ∈ t.subtypes := by
  rw [namedSubtypes, List.mem_flatMap]
  refine exists_congr fun ref => and_congr_right fun _ => ?_
  cases hl : l ref with
  | ok t => simp
  | error e => simp

/-- A part of a type is one of those that it is made of, or what it stands for as a name. -/
theorem mem_subtypes_of_part (h : ApiTypeInfo.Part l t s) :
    s ∈ t.subtypes ∨ ∃ ref, t = .named ref ∧ l ref = .ok s := by
  cases h with
  | element => exact .inl (by simp [ApiTypeInfo.subtypes, self_mem_subtypes])
  | key => exact .inl (by simp [ApiTypeInfo.subtypes, self_mem_subtypes])
  | value => exact .inl (by simp [ApiTypeInfo.subtypes, self_mem_subtypes])
  | content => exact .inl (by simp [ApiTypeInfo.subtypes, self_mem_subtypes])
  | field hf =>
      rw [ApiTypeInfo.subtypes]
      exact .inl (List.mem_cons_of_mem _ (mem_fieldSubtypes.mpr ⟨_, hf, self_mem_subtypes _⟩))
  | member hm =>
      rw [ApiTypeInfo.subtypes]
      exact .inl (List.mem_cons_of_mem _ (mem_memberSubtypes.mpr ⟨_, hm, self_mem_subtypes _⟩))
  | resolved hl => exact .inr ⟨_, rfl, hl⟩

/-- All types that a call for `type` can come to, when `refs` are the names that stand for one. -/
def reachableTypes (l : ApiNamedTypeReference → Except CoercionException ApiTypeInfo)
    (refs : List ApiNamedTypeReference) (type : ApiTypeInfo) : Finset ApiTypeInfo :=
  (type.subtypes ++ namedSubtypes l refs).toFinset

theorem reachableTypes_closed {refs : List ApiNamedTypeReference} {type : ApiTypeInfo}
    (hl : ∀ ref t, l ref = .ok t → ref ∈ refs) :
    ∀ t ∈ reachableTypes l refs type, ∀ s, (typeContainsReferences l).Edge t s →
      s ∈ reachableTypes l refs type := by
  intro t ht s hedge
  rw [edge_iff_part] at hedge
  rw [reachableTypes, List.mem_toFinset, List.mem_append] at ht ⊢
  rcases mem_subtypes_of_part hedge with hs | ⟨ref, rfl, href⟩
  · rcases ht with ht | ht
    · exact .inl (subtypes_trans type t ht hs)
    · obtain ⟨ref, href, u, hu, ht⟩ := mem_namedSubtypes.mp ht
      exact .inr (mem_namedSubtypes.mpr ⟨ref, href, u, hu, subtypes_trans u t ht hs⟩)
  · exact .inr (mem_namedSubtypes.mpr ⟨ref, hl ref s href, s, href, self_mem_subtypes s⟩)

/-- How many types a call for this one goes on with. -/
def recursedCount (l : ApiNamedTypeReference → Except CoercionException ApiTypeInfo)
    (t : ApiTypeInfo) : ℕ :=
  match recursedTypes l t with
  | some types => types.length
  | none => 0

/-- A call that is alone, and finds right answers in the cache, ends after a number of steps
that does not depend on how its tasks interleave, can go on until then, and the answer that it
comes to is right. -/
theorem typeContainsReferences_alone {refs : List ApiNamedTypeReference}
    (hl : ∀ ref t, l ref = .ok t → ref ∈ refs) {answers : ApiTypeInfo → Option Bool}
    (hanswers : ∀ t b, answers t = some b → (b = true ↔ ContainsReference l t))
    (type : ApiTypeInfo) :
    ∃ bound, ∀ actions w, (∀ a ∈ actions, ∀ t, a ≠ .ask t) →
      Transition.run (World.step (typeContainsReferences l))
        (.asking (.ofAnswers answers) type) actions = some w →
      actions.countP Action.isResume ≤ bound ∧
      (∀ s ∈ w.searches, ∀ b, s.task.result = some (some b) →
        (b = true ↔ ContainsReference l type)) ∧
      ((∃ s a, w.searches = [s] ∧ s.task.result = some a) ∨
        ∃ path, ∀ outcome,
          (World.step (typeContainsReferences l) w (.resume 0 path outcome)).isSome = true) := by
  have hdet : ∀ (i j : Unit) x xs ys, (typeContainsReferences l).next i x = some xs →
      (typeContainsReferences l).next j x = some ys → xs = ys := by
    intro i j x xs ys hx hy
    exact Option.some.inj (hx.symm.trans hy)
  have hcost : ∀ (i : Unit) x xs, (typeContainsReferences l).next i x = some xs →
      xs.length ≤ recursedCount l x := by
    intro i x xs hx
    change recursedTypes l x = some xs at hx
    rw [recursedCount, hx]
  have hroot : type ∈ reachableTypes l refs type := by
    rw [reachableTypes, List.mem_toFinset]
    exact List.mem_append_left _ (self_mem_subtypes type)
  obtain ⟨halone, hfits⟩ := World.Alone.asking (G := typeContainsReferences l) hroot
    fun t b hb => (hanswers t b hb).trans finds_iff.symm
  refine ⟨World.weight (recursedCount l) (reachableTypes l refs type)
    (.asking (.ofAnswers answers) type), fun actions w hactions hrun => ?_⟩
  obtain ⟨halone', hcount⟩ :=
    halone.run hdet rfl (reachableTypes_closed hl) hcost hactions hrun
  have hreach : Transition.Reachable (World.step (typeContainsReferences l)) (fun _ _ => True)
      {World.asking (.ofAnswers answers) type} w :=
    (Transition.Reachable.start (Set.mem_singleton _)).run hrun
  have hfits' := World.Fits.reachable (justified_finds (typeContainsReferences l))
    (fun _ h => by rw [h]; exact hfits) hreach
  refine ⟨(Nat.le_add_left _ _).trans hcount, fun s hs b hb => ?_, halone'.enabled⟩
  exact (halone'.answer hfits' hs hb).trans finds_iff

/-- A name that stands for an array of what it stands for. -/
def selfNamed (ref : ApiNamedTypeReference) : Except CoercionException ApiTypeInfo :=
  if ref = ⟨[97], [116]⟩ then .ok (.array none (.named ref)) else .error (.other [])

theorem typeContainsReferences_selfNamed :
    ∃ bound, ∀ actions w, (∀ a ∈ actions, ∀ t, a ≠ .ask t) →
      Transition.run (World.step (typeContainsReferences selfNamed))
        (.asking (.ofAnswers fun _ => none) (.named ⟨[97], [116]⟩)) actions = some w →
      actions.countP Action.isResume ≤ bound ∧
      (∀ s ∈ w.searches, ∀ b, s.task.result = some (some b) →
        (b = true ↔ ContainsReference selfNamed (.named ⟨[97], [116]⟩))) ∧
      ((∃ s a, w.searches = [s] ∧ s.task.result = some a) ∨
        ∃ path, ∀ outcome, (World.step (typeContainsReferences selfNamed) w
          (.resume 0 path outcome)).isSome = true) := by
  have hl : ∀ ref t, selfNamed ref = .ok t → ref ∈ [(⟨[97], [116]⟩ : ApiNamedTypeReference)] := by
    intro ref t h
    rw [selfNamed] at h
    split at h
    · next href => rw [href]; exact List.mem_cons_self
    · cases h
  exact typeContainsReferences_alone hl (fun t b h => by cases h) (.named ⟨[97], [116]⟩)

end

/-! ## An answer that is wrong -/

section
variable {l : ApiNamedTypeReference → Except CoercionException ApiTypeInfo}

/-- A structure with a field of some type and a field with an array of that type. -/
def withArray (a b : Bytes) (size : Option ℤ) (t : ApiTypeInfo) : ApiTypeInfo :=
  .structure [(a, ⟨t, none⟩), (b, ⟨.array size t, none⟩)]

theorem ne_withArray {a b : Bytes} {size : Option ℤ} {t : ApiTypeInfo} :
    t ≠ withArray a b size t := by
  intro h
  have := congrArg sizeOf h
  simp [withArray] at this
  omega

/-- The evaluation of the structure up to the point where the first field is asked. -/
inductive EarlyTask (a b : Bytes) (size : Option ℤ) (t : ApiTypeInfo) :
    List ApiTypeInfo → MemoSearch.Task ApiTypeInfo → Prop
  | call : EarlyTask a b size t [] (.call (withArray a b size t))
  | opening : EarlyTask a b size t [withArray a b size t] (.opening (withArray a b size t))
  | body : EarlyTask a b size t [withArray a b size t]
      (.body (withArray a b size t) [.call t, .call (.array size t)])
  | failed : EarlyTask a b size t [withArray a b size t] (.done (withArray a b size t) none)

/-- Before the first field is asked nothing is known; afterwards all that the array can lead to
has been met. -/
def ArrayMisjudged (l : ApiNamedTypeReference → Except CoercionException ApiTypeInfo) (a b : Bytes)
    (size : Option ℤ) (t : ApiTypeInfo) (m : Memory ApiTypeInfo) (seen : List ApiTypeInfo)
    (task : MemoSearch.Task ApiTypeInfo) : Prop :=
  (EarlyTask a b size t seen task ∧ ∀ x, x ∉ seen → m.entry x = .absent) ∨
    Shadowed (typeContainsReferences l) (.array size t) m seen task

variable {a b : Bytes} {size : Option ℤ} {t : ApiTypeInfo} {m m' : Memory ApiTypeInfo}
  {seen seen' : List ApiTypeInfo} {task task' : MemoSearch.Task ApiTypeInfo}

theorem array_ne_withArray : ApiTypeInfo.array size t ≠ withArray a b size t := by
  simp [withArray]

theorem ArrayMisjudged.entry_ne (h : ArrayMisjudged l a b size t m seen task) :
    m.entry (.array size t) ≠ .ready true := by
  rcases h with ⟨hearly, h⟩ | h
  · have hseen : ApiTypeInfo.array size t ∉ seen := by
      cases hearly <;> simp [array_ne_withArray]
    rw [h _ hseen]
    simp
  · exact h.entry

/-- The first field is asked. -/
theorem shadowed_of_first (hm : ∀ x, x ∉ [withArray a b size t] → m.entry x = .absent) :
    Shadowed (typeContainsReferences l) (.array size t) (m.set t .computing)
      [t, withArray a b size t]
      (.body (withArray a b size t) [.opening t, .call (.array size t)]) where
  goal := rfl
  successors := by
    intro y hy
    rw [edge_iff_part] at hy
    cases hy with
    | element => exact List.mem_cons_self
  entry := by
    rw [entry_set]
    split
    · simp
    · rw [hm _ (by simp [array_ne_withArray])]
      simp
  parts := by
    simp [array_ne_withArray.symm]

theorem ArrayMisjudged.step (h : ArrayMisjudged l a b size t m seen task)
    (hstep : Step (typeContainsReferences l) m seen task m' seen' task') :
    ArrayMisjudged l a b size t m' seen' task' := by
  rcases h with ⟨hearly, hm⟩ | h
  · cases hearly with
    | call =>
        cases hstep with
        | revisit _ hx => cases hx
        | known _ hentry =>
            rw [hm _ List.not_mem_nil] at hentry
            cases hentry
        | wait _ hentry =>
            rw [hm _ List.not_mem_nil] at hentry
            cases hentry
        | miss =>
            refine .inl ⟨.opening, fun x hx => ?_⟩
            rw [entry_set, if_neg (by simpa using hx)]
            exact hm x List.not_mem_nil
    | opening =>
        cases hstep with
        | expand hnext =>
            cases hnext
            exact .inl ⟨.body, hm⟩
        | fail =>
            refine .inl ⟨.failed, fun x hx => ?_⟩
            rw [entry_finish, if_neg (by simpa using hx)]
            exact hm x hx
    | body =>
        generalize hts : [MemoSearch.Task.call t, .call (.array size t)] = ts at hstep
        cases hstep with
        | finish hended =>
            subst hts
            have := hended _ List.mem_cons_self
            cases this
        | @within _ _ _ u u' before after horder hone =>
            cases before with
            | nil =>
                obtain ⟨rfl, rfl⟩ := List.cons.inj hts
                have ht : t ∉ [withArray a b size t] := by simp [ne_withArray]
                cases hone with
                | revisit _ hx => exact absurd hx ht
                | known _ hentry =>
                    rw [hm _ ht] at hentry
                    cases hentry
                | wait _ hentry =>
                    rw [hm _ ht] at hentry
                    cases hentry
                | miss => exact .inr (shadowed_of_first hm)
            | cons v before =>
                -- the second field would be asked before the first one
                obtain ⟨rfl, -⟩ := List.cons.inj hts
                have := horder rfl _ List.mem_cons_self
                cases this
    | failed => cases hstep
  · exact .inr (h.step rfl hstep)

theorem ArrayMisjudged.evict {x : ApiTypeInfo} (h : ArrayMisjudged l a b size t m seen task) :
    ArrayMisjudged l a b size t (m.set x .absent) seen task := by
  rcases h with ⟨hearly, hm⟩ | h
  · refine .inl ⟨hearly, fun y hy => ?_⟩
    rw [entry_set]
    split
    · rfl
    · exact hm y hy
  · refine .inr ⟨h.goal, h.successors, ?_, h.parts⟩
    rw [entry_set]
    split
    · simp
    · exact h.entry

theorem ArrayMisjudged.open {x : ApiTypeInfo} (h : ArrayMisjudged l a b size t m seen task) :
    ArrayMisjudged l a b size t (m.open x) seen task :=
  h.imp_right fun h => ⟨h.goal, h.successors, h.entry, h.parts⟩

def misjudgingActions : List (Action Unit ApiTypeInfo) :=
  [.resume 0 [] none, .resume 0 [] (some ()), .resume 0 [0] none, .resume 0 [0] (some ()),
    .resume 0 [1] none, .resume 0 [1] (some ()), .resume 0 [1, 0] none, .resume 0 [1] none]

end

end Cradle
