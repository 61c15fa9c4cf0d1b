import Mathlib.Data.Finset.Union
import Mathlib.Data.Set.Finite.Basic
import Cradle.Thinknode.SearchCalculation

/-!
# What a search of a calculation finds

The search goes through the subrequests of a retrieved request, all but the index of an ITEM
and the field of a PROPERTY, and meets the calculations in the order of a depth-first
traversal.  It stops being exact at the first calculation in that order that gives trouble.
-/

namespace Cradle.Thinknode.Search

open DepthFirst

variable (retrieve : Bytes → Except RetrievalError CalcRequest)
  (staleTag : Bytes → Option CalcRequestTag) (searchString : Bytes)

/-! ## What there is to find -/

/-- The request is the reference or has it at any depth. -/
inductive Refers (ref : Bytes) : CalcRequest → Prop
  | self : Refers ref (.reference ref)
  | child {request child} : child ∈ request.children → Refers ref child → Refers ref request

/-- Every subrequest is a reference or a value. -/
def IsShallow (request : CalcRequest) : Prop :=
  ∀ child ∈ request.children, (∃ ref, child = .reference ref) ∨ ∃ v, child = .value v

/-- A CALC reference in the request that is retrieved for an ID. -/
def Leads (id id' : Bytes) : Prop :=
  ∃ request, retrieve id = .ok request ∧ Refers id' request ∧
    getThinknodeServiceId id' = .ok .calc

def Reachable (root id : Bytes) : Prop := Relation.ReflTransGen (Leads retrieve) root id

/-- The request is an application of a function whose name contains the search string. -/
def Matching (id : Bytes) : Prop :=
  ∃ account app name level args, retrieve id = .ok (.function account app name level args) ∧
    searchString <:+: name

/-- The request is there, or the server does not have it. -/
def Retrievable (id : Bytes) : Prop :=
  ∀ e, retrieve id = .error e → e = .badHttpStatusCode 404

/-- The matches are exactly what there is to find, or a failure to retrieve a calculation is
reported; no such failure is passed over. -/
def MeetsSpec (root : Bytes) (outcome : Except SearchException (List Bytes))
    (retrieved : List Bytes) : Prop :=
  (∀ id ∈ retrieved, ∀ e, retrieve id = .error e → e ≠ .badHttpStatusCode 404 →
    outcome = .error (.retrieval e)) ∧
  ((∃ ids, outcome = .ok ids ∧ (∀ id, Reachable retrieve root id → Retrievable retrieve id) ∧
      ∀ id, id ∈ ids ↔ Reachable retrieve root id ∧ Matching retrieve searchString id) ∨
    ∃ id e, Reachable retrieve root id ∧ retrieve id = .error e ∧ e ≠ .badHttpStatusCode 404 ∧
      outcome = .error (.retrieval e))

/-- With enough fuel the search ends as it should. -/
def SearchesExactly (root : Bytes) : Prop :=
  ∃ fuel, ∀ more ≥ fuel, MeetsSpec retrieve searchString root
    (searchMatches retrieve staleTag searchString more root)
    (run retrieve staleTag searchString more root).2.retrieved

/-! ## The graph of a search -/

/-- What a search comes to: a calculation, or a reference that is no ID of a service. -/
inductive Node
  | calculation (id : Bytes)
  | malformed (ref : Bytes)
  deriving DecidableEq

/-- What `recurse` comes to. -/
def nodesOf : CalcRequest → List Node
  | .reference ref =>
      match getThinknodeServiceId ref with
      | .ok .calc => [.calculation ref]
      | .ok _ => []
      | .error _ => [.malformed ref]
  | _ => []

/-- What comes after a node: all subrequests are looked at but the index of an ITEM and the
field of a PROPERTY. -/
def succ : Node → List Node
  | .calculation id =>
      match retrieve id with
      | .ok request => request.substituted.flatMap nodesOf
      | .error _ => []
  | .malformed _ => []

/-- The search does not get past the node, or passes over a failure there. -/
def troubled : Node → Bool
  | .calculation id =>
      match retrieve id with
      | .ok request => request.isLet || request.isVariable
      | .error e => e ≠ .badHttpStatusCode 404
  | .malformed _ => true

/-- The failure to retrieve the calculation is thrown. -/
def propagates : Node → Bool
  | .calculation id =>
      match retrieve id with
      | .error (.other _) => true
      | _ => false
  | .malformed _ => false

/-- Of what the search meets the first node with trouble, if there is one, is a failure that is
thrown; and if there is none, what can be reached but is not met is of no account. -/
def MeetsAll (root : Bytes) : Prop :=
  ∀ met, Visits (succ retrieve) [.calculation root] ∅ met →
    match met.find? (troubled retrieve) with
    | some node => propagates retrieve node = true
    | none => ∀ id, Reachable retrieve root id → .calculation id ∉ met →
        Retrievable retrieve id ∧ ¬ Matching retrieve searchString id

variable {retrieve staleTag searchString} {s s' : SearchState} {id : Bytes} {fuel : ℕ}

/-! ## One call -/

/-- The IDs that have been searched. -/
def seenNodes (s : SearchState) : Set Node :=
  {node | ∃ id, node = .calculation id ∧ (Assoc.find id s.isMatching).isSome = true}

theorem calc_mem_seenNodes :
    .calculation id ∈ seenNodes s ↔ (Assoc.find id s.isMatching).isSome = true := by
  constructor
  · rintro ⟨id', h, hfind⟩
    cases h
    exact hfind
  · exact fun h => ⟨id, rfl, h⟩

/-- What is noted for an ID. -/
def isMatch (retrieve : Bytes → Except RetrievalError CalcRequest) (searchString id : Bytes) :
    Bool :=
  match retrieve id with
  | .ok (.function _ _ name _ _) => (Occurrence.find searchString name).isSome
  | _ => false

theorem isMatch_iff :
    isMatch retrieve searchString id = true ↔ Matching retrieve searchString id := by
  have hfind (name : Bytes) :
      (Occurrence.find searchString name).isSome = true ↔ searchString <:+: name := by
    rw [← Option.ne_none_iff_isSome, ne_eq, Occurrence.find_eq_none, not_not]
  unfold isMatch
  split
  case h_1 account app name level args h =>
      rw [hfind]
      refine ⟨fun hname => ⟨_, _, _, _, _, h, hname⟩, ?_⟩
      rintro ⟨_, _, _, _, _, h', hname⟩
      rw [h] at h'
      cases h'
      exact hname
  case h_2 hnot =>
      refine iff_of_false Bool.false_ne_true ?_
      rintro ⟨account, app, name, level, args, h, -⟩
      exact hnot account app name level args h

/-- The ID is noted to have been searched, and its request to have been retrieved. -/
def noted (id : Bytes) (matching : Bool) (s : SearchState) : SearchState where
  isMatching := Assoc.assign id matching s.isMatching
  retrieved := id :: s.retrieved

theorem recurseAll_singleton (search : Bytes → Search Unit) (request : CalcRequest) :
    recurseAll search [request] = recurse search request := by
  rw [recurseAll, recurseAll]
  exact bind_pure _

theorem exec_seen (h : .calculation id ∈ seenNodes s) :
    (searchCalculation retrieve staleTag searchString (fuel + 1) id).exec s = (.ok (), s) := by
  rw [searchCalculation, Reader.exec_bind_ok (Reader.exec_get s), if_pos (calc_mem_seenNodes.mp h)]
  rfl

/-- A request that was retrieved, with no variables in it. -/
theorem exec_resolved (h : .calculation id ∉ seenNodes s) {request : CalcRequest}
    (hretrieve : retrieve id = .ok request)
    (hresolved : (request.isLet || request.isVariable) = false) :
    (searchCalculation retrieve staleTag searchString (fuel + 1) id).exec s =
      (recurseAll (searchCalculation retrieve staleTag searchString fuel) request.substituted).exec
        (noted id (isMatch retrieve searchString id) s) := by
  have hleaf {d : Bytes → Search Unit} :
      (setMatching id false).exec { s with retrieved := id :: s.retrieved }
        = (recurseAll d []).exec (noted id false s) := rfl
  have hloop (matching : Bool) (d : Bytes → Search Unit) (requests : List CalcRequest) :
      (setMatching id matching >>= fun _ => recurseAll d requests).exec
          { s with retrieved := id :: s.retrieved }
        = (recurseAll d requests).exec (noted id matching s) :=
    Reader.exec_bind_ok rfl
  have hone (d : Bytes → Search Unit) (request : CalcRequest) :
      (setMatching id false >>= fun _ => recurse d request).exec
          { s with retrieved := id :: s.retrieved }
        = (recurseAll d [request]).exec (noted id false s) := by
    rw [recurseAll_singleton]
    exact Reader.exec_bind_ok rfl
  rw [searchCalculation, Reader.exec_bind_ok (Reader.exec_get s),
    if_neg fun hfind => h (calc_mem_seenNodes.mpr hfind),
    Reader.exec_bind_ok (show (noteRetrieval id).exec s = (.ok (), _) from rfl), isMatch, hretrieve]
  cases request with
  | «let» definitions body => cases hresolved
  | «variable» name => cases hresolved
  | reference ref => exact hleaf
  | value v => exact hleaf
  | function account app name level args => exact hloop _ _ args
  | array items itemSchema => exact hloop _ _ items
  | object properties schema => exact hloop _ _ _
  | item array index schema => exact hone _ array
  | property object field schema => exact hone _ object
  | «meta» generator schema => exact hone _ generator
  | cast schema object => exact hone _ object

theorem exec_unseen_error (h : .calculation id ∉ seenNodes s) {e : RetrievalError}
    (hretrieve : retrieve id = .error e) :
    (searchCalculation retrieve staleTag searchString (fuel + 1) id).exec s =
      Reader.exec
        (match e with
          | .badHttpStatusCode statusCode =>
              if statusCode = 404 then setMatching id false else searchStale id (staleTag id)
          | .other what => throw (.retrieval (.other what)))
        { s with retrieved := id :: s.retrieved } := by
  rw [searchCalculation, Reader.exec_bind_ok (Reader.exec_get s),
    if_neg fun hfind => h (calc_mem_seenNodes.mpr hfind),
    Reader.exec_bind_ok (show (noteRetrieval id).exec s = (.ok (), _) from rfl), hretrieve]
  cases e <;> rfl

theorem exec_unresolved (h : .calculation id ∉ seenNodes s) {request : CalcRequest}
    (hretrieve : retrieve id = .ok request)
    (hresolved : (request.isLet || request.isVariable) = true) :
    ∃ message, (searchCalculation retrieve staleTag searchString (fuel + 1) id).exec s =
      (.error (.internalCheckFailed message), { s with retrieved := id :: s.retrieved }) := by
  rw [searchCalculation, Reader.exec_bind_ok (Reader.exec_get s),
    if_neg fun hfind => h (calc_mem_seenNodes.mpr hfind),
    Reader.exec_bind_ok (show (noteRetrieval id).exec s = (.ok (), _) from rfl), hretrieve]
  cases request with
  | «let» definitions body => exact ⟨_, rfl⟩
  | «variable» name => exact ⟨_, rfl⟩
  | _ => exact absurd hresolved Bool.false_ne_true

/-! ### What any call does -/

/-- Retrievals stay noted, and the map stays one. -/
structure Grows (s s' : SearchState) : Prop where
  retrieved : s.retrieved ⊆ s'.retrieved
  sorted : Assoc.Sorted s.isMatching → Assoc.Sorted s'.isMatching

instance : Std.Refl Grows := ⟨fun s => ⟨List.Subset.refl s.retrieved, fun h => h⟩⟩

instance : IsTrans SearchState Grows :=
  ⟨fun _ _ _ h h' => ⟨List.Subset.trans h.retrieved h'.retrieved, h'.sorted ∘ h.sorted⟩⟩

/-- An HTTP error is never thrown. -/
def NotHttp (e : SearchException) : Prop :=
  ∀ statusCode, e ≠ .retrieval (.badHttpStatusCode statusCode)

theorem stoul16_error {text : Bytes} {e : SearchException} (h : stoul16 text = .error e) :
    e = .invalidArgument := by
  have hite {p : Prop} [Decidable p] {n : ℕ}
      (h : (if p then .error .invalidArgument else .ok n) =
        (Except.error e : Except SearchException ℕ)) :
      e = .invalidArgument := by
    split at h <;> cases h
    rfl
  exact hite h

/-- What is no ID of a service is not taken for a failure to retrieve. -/
theorem getThinknodeServiceId_error {ref : Bytes} {e : SearchException}
    (h : getThinknodeServiceId ref = .error e) (e' : RetrievalError) : e ≠ .retrieval e' := by
  rintro rfl
  unfold getThinknodeServiceId at h
  split at h
  · cases h
  · split at h
    · rename_i hstoul
      cases h
      cases stoul16_error hstoul
    · split at h <;> cases h

/-- The two facts about every part of a search. -/
structure Tame {α : Type} (m : Search α) : Prop where
  grows : Reader.Extends Grows m
  throws : Reader.Throws NotHttp m

namespace Tame

variable {α β : Type} {m : Search α} {f : α → Search β}

theorem pure (x : α) : Tame (Pure.pure x : Search α) := ⟨.pure x, .pure x⟩

theorem throw {e : SearchException} (he : NotHttp e) : Tame (MonadExcept.throw e : Search α) :=
  ⟨.throw e, .throw he⟩

theorem bind (hm : Tame m) (hf : ∀ x, Tame (f x)) : Tame (m >>= f) :=
  ⟨hm.grows.bind fun x => (hf x).grows, hm.throws.bind fun x => (hf x).throws⟩

theorem get : Tame (MonadState.get : Search SearchState) :=
  ⟨fun s => refl_of Grows s, .of_ok fun s => ⟨s, rfl⟩⟩

theorem setMatching (id : Bytes) (matching : Bool) : Tame (setMatching id matching) :=
  ⟨fun s => ⟨List.Subset.refl s.retrieved, Assoc.Sorted.assign⟩, .of_ok fun _ => ⟨(), rfl⟩⟩

theorem noteRetrieval (id : Bytes) : Tame (noteRetrieval id) :=
  ⟨fun s => ⟨List.subset_cons_self id s.retrieved, fun h => h⟩, .of_ok fun _ => ⟨(), rfl⟩⟩

theorem searchStale (id : Bytes) (tag : Option CalcRequestTag) : Tame (searchStale id tag) := by
  have hcast : Tame (Search.setMatching id false >>= fun _ =>
      (MonadExcept.throw .badAnyCast : Search Unit)) :=
    (setMatching id false).bind fun _ => .throw fun _ => nofun
  cases tag with
  | none => exact .throw fun _ => nofun
  | some tag =>
      cases tag with
      | reference | value => exact setMatching id false
      | function | «let» | «variable» => exact .throw fun _ => nofun
      | _ => exact hcast

theorem recurse {search : Bytes → Search Unit} (h : ∀ id, Tame (search id))
    (request : CalcRequest) : Tame (recurse search request) := by
  cases request with
  | reference ref =>
      have hservice : Tame (liftM (getThinknodeServiceId ref) : Search ThinknodeServiceId) := by
        cases hservice : getThinknodeServiceId ref with
        | error e => exact .throw fun _ => getThinknodeServiceId_error hservice _
        | ok service => exact .pure service
      refine hservice.bind fun service => ?_
      split
      · exact h ref
      · exact .pure ()
  | _ => exact .pure ()

theorem recurseAll {search : Bytes → Search Unit} (h : ∀ id, Tame (search id))
    (requests : List CalcRequest) : Tame (recurseAll search requests) := by
  induction requests with
  | nil => exact .pure ()
  | cons request requests ih => exact (recurse h request).bind fun _ => ih

theorem searchCalculation (fuel : ℕ) (id : Bytes) :
    Tame (searchCalculation retrieve staleTag searchString fuel id) := by
  induction fuel generalizing id with
  | zero => exact .throw fun _ => nofun
  | succ fuel ih =>
      rw [Search.searchCalculation]
      refine get.bind fun s => ?_
      split
      · exact .pure ()
      refine (noteRetrieval id).bind fun _ => ?_
      cases retrieve id with
      | error e =>
          cases e with
          | badHttpStatusCode statusCode =>
              change Tame (if statusCode = 404 then Search.setMatching id false
                else Search.searchStale id (staleTag id))
              split
              · exact setMatching id false
              · exact searchStale id _
          | other what => exact .throw fun _ => nofun
      | ok request =>
          cases request with
          | reference | value => exact setMatching id false
          | function | array | object => exact (setMatching id _).bind fun _ => recurseAll ih _
          | item | property | «meta» | cast => exact (setMatching id _).bind fun _ => recurse ih _
          | «let» | «variable» => exact .throw fun _ => nofun

end Tame

/-! ## The search follows the traversal -/

/-- The nodes `met` gave no trouble, and they are noted. -/
def Done (retrieve : Bytes → Except RetrievalError CalcRequest) (searchString : Bytes)
    (met : List Node) (s : SearchState) (out : Except SearchException Unit × SearchState) : Prop :=
  ∃ s', out = (.ok (), s') ∧ (∀ node ∈ met, troubled retrieve node = false) ∧
    (∀ id, Assoc.find id s'.isMatching =
      if .calculation id ∈ met then some (isMatch retrieve searchString id)
      else Assoc.find id s.isMatching) ∧
    ∀ id ∈ s'.retrieved, id ∈ s.retrieved ∨ .calculation id ∈ met

/-- What comes of a node with trouble after the nodes `before`.  A failure that is passed over
has been retrieved, and no more is said of how the search goes on. -/
def AtTrouble (retrieve : Bytes → Except RetrievalError CalcRequest) (before : List Node)
    (s : SearchState) (out : Except SearchException Unit × SearchState) : Node → Prop
  | .malformed _ => ∃ e, out.1 = .error e ∧ ∀ e', e ≠ .retrieval e'
  | .calculation id =>
      match retrieve id with
      | .ok _ => ∃ e, out.1 = .error e ∧ ∀ e', e ≠ .retrieval e'
      | .error (.other what) => out.1 = .error (.retrieval (.other what)) ∧
          ∀ id' ∈ out.2.retrieved, id' ∈ s.retrieved ∨ .calculation id' ∈ before ∨ id' = id
      | .error (.badHttpStatusCode _) => id ∈ out.2.retrieved

/-- The first node with trouble decides. -/
def Stopped (retrieve : Bytes → Except RetrievalError CalcRequest) (met : List Node)
    (s : SearchState) (out : Except SearchException Unit × SearchState) : Prop :=
  ∃ before node after, met = before ++ node :: after ∧
    (∀ node ∈ before, troubled retrieve node = false) ∧ troubled retrieve node = true ∧
    AtTrouble retrieve before s out node

/-- A part of the search goes through `todo` as the traversal does. -/
def Explores (retrieve : Bytes → Except RetrievalError CalcRequest) (searchString : Bytes)
    (todo : List Node) (m : Search Unit) (s : SearchState) : Prop :=
  ∃ met, Visits (succ retrieve) todo (seenNodes s) met ∧
    (Done retrieve searchString met s (m.exec s) ∨ Stopped retrieve met s (m.exec s))

theorem seenNodes_of_find {met : List Node}
    (hmet : ∀ node ∈ met, troubled retrieve node = false)
    (hfind : ∀ id, Assoc.find id s'.isMatching =
      if .calculation id ∈ met then some (isMatch retrieve searchString id)
      else Assoc.find id s.isMatching) :
    seenNodes s' = seenNodes s ∪ {node | node ∈ met} := by
  ext node
  cases node with
  | calculation id =>
      rw [Set.mem_union, calc_mem_seenNodes, calc_mem_seenNodes, hfind id, Set.mem_ofPred_eq]
      by_cases hid : .calculation id ∈ met
      · simp [hid]
      · simp [hid]
  | malformed ref =>
      have hnot (s : SearchState) : .malformed ref ∉ seenNodes s := by
        rintro ⟨id, h, -⟩
        cases h
      refine iff_of_false (hnot s') ?_
      rintro (h | h)
      · exact hnot s h
      · exact absurd (hmet _ h) (by rw [troubled]; exact Bool.false_ne_true ∘ Eq.symm)

theorem AtTrouble.bind {before : List Node} {node : Node} {m : Search Unit} {f : Unit → Search Unit}
    (h : AtTrouble retrieve before s (m.exec s) node) (hf : ∀ x, Tame (f x)) :
    AtTrouble retrieve before s ((m >>= f).exec s) node := by
  have herror {e : SearchException} (he : (m.exec s).1 = .error e) :
      (m >>= f).exec s = m.exec s := by
    rcases hexec : m.exec s with ⟨outcome, s'⟩
    rw [hexec] at he
    cases he
    exact Reader.exec_bind_error hexec
  cases node with
  | malformed ref =>
      obtain ⟨e, he, hnot⟩ := h
      exact ⟨e, by rw [herror he]; exact he, hnot⟩
  | calculation id =>
      cases hretrieve : retrieve id with
      | ok request =>
          simp only [AtTrouble, hretrieve] at h ⊢
          obtain ⟨e, he, hnot⟩ := h
          exact ⟨e, by rw [herror he]; exact he, hnot⟩
      | error e =>
          cases e with
          | other what =>
              simp only [AtTrouble, hretrieve] at h ⊢
              rw [herror h.1]
              exact h
          | badHttpStatusCode statusCode =>
              simp only [AtTrouble, hretrieve] at h ⊢
              rcases hexec : m.exec s with ⟨outcome, s'⟩
              rw [hexec] at h
              cases outcome with
              | error e => rwa [Reader.exec_bind_error hexec]
              | ok x =>
                  rw [Reader.exec_bind_ok hexec]
                  exact ((hf x).grows s').retrieved h

theorem AtTrouble.mono {before before' : List Node} {node : Node}
    {out : Except SearchException Unit × SearchState} (h : AtTrouble retrieve before s out node)
    (hbefore : ∀ id, id ∈ s.retrieved ∨ .calculation id ∈ before →
      id ∈ s'.retrieved ∨ .calculation id ∈ before') :
    AtTrouble retrieve before' s' out node := by
  cases node with
  | malformed ref => exact h
  | calculation id =>
      cases hretrieve : retrieve id with
      | ok request => simpa only [AtTrouble, hretrieve] using h
      | error e =>
          cases e with
          | badHttpStatusCode statusCode => simpa only [AtTrouble, hretrieve] using h
          | other what =>
              simp only [AtTrouble, hretrieve] at h ⊢
              refine ⟨h.1, fun id' hid' => ?_⟩
              rcases h.2 id' hid' with hid' | hid' | hid'
              · exact (hbefore id' (.inl hid')).imp_right .inl
              · exact (hbefore id' (.inr hid')).imp_right .inl
              · exact .inr (.inr hid')

/-- Nodes that gave no trouble, and then others. -/
theorem Done.append {met met' : List Node} {out : Except SearchException Unit × SearchState}
    (h : Done retrieve searchString met s (.ok (), s'))
    (h' : Done retrieve searchString met' s' out ∨ Stopped retrieve met' s' out) :
    Done retrieve searchString (met ++ met') s out ∨ Stopped retrieve (met ++ met') s out := by
  obtain ⟨_, hok, hmet, hfind, hretrieved⟩ := h
  cases hok
  rcases h' with ⟨s'', hexec, hmet', hfind', hretrieved'⟩ |
    ⟨before, node, after, rfl, hbefore, hnode, htrouble⟩
  · refine .inl ⟨s'', hexec, fun node hnode => ?_, fun id => ?_, fun id hid => ?_⟩
    · exact (List.mem_append.mp hnode).elim (hmet node) (hmet' node)
    · rw [hfind', hfind]
      by_cases hid : .calculation id ∈ met
      · simp [hid]
      · simp [hid]
    · rcases hretrieved' id hid with hid | hid
      · exact (hretrieved id hid).imp_right (List.mem_append_left _)
      · exact .inr (List.mem_append_right _ hid)
  · refine .inr ⟨met ++ before, node, after, (List.append_assoc ..).symm, ?_, hnode, ?_⟩
    · exact fun other hother => (List.mem_append.mp hother).elim (hmet other) (hbefore other)
    · refine htrouble.mono fun id hid => ?_
      rcases hid with hid | hid
      · exact (hretrieved id hid).imp_right (List.mem_append_left _)
      · exact .inr (List.mem_append_right _ hid)

section Explores
variable {nodes : Finset Node} {todo todo' : List Node} {m m' : Search Unit}

theorem Explores.nil (h : m.exec s = (.ok (), s)) : Explores retrieve searchString [] m s :=
  ⟨[], .nil, .inl ⟨s, h, fun _ h => (nomatch h), fun _ => rfl, fun _ h => .inl h⟩⟩

/-- One part of the search after the other. -/
theorem Explores.append (hclosed : ∀ x ∈ nodes, ∀ y ∈ succ retrieve x, y ∈ nodes)
    (h : Explores retrieve searchString todo m s) (htodo : ∀ x ∈ todo', x ∈ nodes) (hm : Tame m')
    (h' : ∀ s', seenNodes s ⊆ seenNodes s' → Explores retrieve searchString todo' m' s') :
    Explores retrieve searchString (todo ++ todo') (m >>= fun _ => m') s := by
  obtain ⟨met, hvisits, hdone | hstopped⟩ := h
  · obtain ⟨s', hexec, hmet, hfind, hretrieved⟩ := hdone
    have hseen := seenNodes_of_find hmet hfind
    obtain ⟨met', hvisits', hout⟩ := h' s' (hseen ▸ Set.subset_union_left)
    rw [hseen] at hvisits'
    refine ⟨met ++ met', hvisits.append hvisits', ?_⟩
    rw [Reader.exec_bind_ok hexec]
    exact Done.append ⟨s', rfl, hmet, hfind, hretrieved⟩ hout
  · obtain ⟨before, node, after, rfl, hbefore, hnode, htrouble⟩ := hstopped
    obtain ⟨rest, hrest⟩ := Visits.exists_of_finite hclosed todo'
      (seenNodes s ∪ {x | x ∈ before ++ node :: after}) htodo
    refine ⟨_, hvisits.append hrest, .inr ⟨before, node, after ++ rest, ?_, hbefore, hnode, ?_⟩⟩
    · rw [List.append_assoc, List.cons_append]
    · exact htrouble.bind fun _ => hm

theorem done_noted (huntroubled : troubled retrieve (.calculation id) = false) :
    Done retrieve searchString [.calculation id] s
      (.ok (), noted id (isMatch retrieve searchString id) s) := by
  refine ⟨_, rfl, fun node hnode => ?_, fun id' => ?_, fun id' hid' => ?_⟩
  · rw [List.mem_singleton.mp hnode]
    exact huntroubled
  · refine Assoc.find_assign.trans ?_
    by_cases h : id = id'
    · simp [h]
    · simp [h, Ne.symm h]
  · rcases List.mem_cons.mp hid' with rfl | hid'
    · exact .inr List.mem_cons_self
    · exact .inl hid'

/-- A calculation without trouble, and what comes after it. -/
theorem Explores.head (hid : .calculation id ∉ seenNodes s)
    (huntroubled : troubled retrieve (.calculation id) = false)
    (h : Explores retrieve searchString (succ retrieve (.calculation id)) m
      (noted id (isMatch retrieve searchString id) s))
    (hm : m'.exec s = m.exec (noted id (isMatch retrieve searchString id) s)) :
    Explores retrieve searchString [.calculation id] m' s := by
  obtain ⟨met, hvisits, hout⟩ := h
  have hdone : Done retrieve searchString [.calculation id] s
      (.ok (), noted id (isMatch retrieve searchString id) s) := done_noted huntroubled
  have hdone' := hdone
  obtain ⟨_, hok, hmet, hfind, -⟩ := hdone'
  cases hok
  have hseen : seenNodes (noted id (isMatch retrieve searchString id) s)
      = insert (.calculation id) (seenNodes s) := by
    rw [seenNodes_of_find hmet hfind, Set.union_comm]
    ext node
    simp
  refine ⟨.calculation id :: met, .visit hid ?_, ?_⟩
  · rw [List.append_nil, ← hseen]
    exact hvisits
  · rw [hm]
    exact hdone.append hout

/-- A node with trouble. -/
theorem Explores.trouble (hclosed : ∀ x ∈ nodes, ∀ y ∈ succ retrieve x, y ∈ nodes) {node : Node}
    (hnode : node ∈ nodes) (hseen : node ∉ seenNodes s) (htroubled : troubled retrieve node = true)
    (h : AtTrouble retrieve [] s (m.exec s) node) :
    Explores retrieve searchString [node] m s := by
  obtain ⟨rest, hrest⟩ := Visits.exists_of_finite hclosed (succ retrieve node ++ [])
    (insert node (seenNodes s)) (by simpa using hclosed node hnode)
  exact ⟨node :: rest, .visit hseen hrest, .inr ⟨[], node, rest, rfl, fun _ h => (nomatch h),
    htroubled, h⟩⟩

/-- What `recurse` does with one request. -/
theorem explores_recurse (hclosed : ∀ x ∈ nodes, ∀ y ∈ succ retrieve x, y ∈ nodes)
    {search : Bytes → Search Unit} (request : CalcRequest)
    (hnodes : ∀ node ∈ nodesOf request, node ∈ nodes)
    (hsearch : ∀ id, .calculation id ∈ nodes →
      Explores retrieve searchString [.calculation id] (search id) s) :
    Explores retrieve searchString (nodesOf request) (recurse search request) s := by
  cases request with
  | reference ref =>
      cases hservice : getThinknodeServiceId ref with
      | error e =>
          have hexec : (recurse search (.reference ref)).exec s = (.error e, s) := by
            rw [recurse, hservice]
            exact Reader.exec_bind_error rfl
          simp only [nodesOf, hservice] at hnodes ⊢
          refine Explores.trouble hclosed (hnodes _ List.mem_cons_self) ?_ rfl ?_
          · rintro ⟨id, h, -⟩
            cases h
          · rw [hexec]
            exact ⟨e, rfl, getThinknodeServiceId_error hservice⟩
      | ok service =>
          have hexec : (recurse search (.reference ref)).exec s =
              (if service = .calc then search ref else pure ()).exec s := by
            rw [recurse, hservice]
            exact Reader.exec_bind_ok rfl
          by_cases hcalc : service = .calc
          · subst hcalc
            simp only [nodesOf, hservice] at hnodes ⊢
            obtain ⟨met, hvisits, hout⟩ := hsearch ref (hnodes _ List.mem_cons_self)
            refine ⟨met, hvisits, ?_⟩
            rwa [hexec]
          · have hnil : nodesOf (.reference ref) = [] := by simp only [nodesOf, hservice]
            rw [hnil]
            refine Explores.nil ?_
            rw [hexec, if_neg hcalc]
            rfl
  | _ => exact Explores.nil rfl

theorem explores_recurseAll (hclosed : ∀ x ∈ nodes, ∀ y ∈ succ retrieve x, y ∈ nodes)
    {search : Bytes → Search Unit} (htame : ∀ id, Tame (search id)) (requests : List CalcRequest)
    (hnodes : ∀ node ∈ requests.flatMap nodesOf, node ∈ nodes)
    (hsearch : ∀ s', seenNodes s ⊆ seenNodes s' → ∀ id, .calculation id ∈ nodes →
      Explores retrieve searchString [.calculation id] (search id) s') :
    Explores retrieve searchString (requests.flatMap nodesOf) (recurseAll search requests) s := by
  induction requests generalizing s with
  | nil => exact Explores.nil rfl
  | cons request requests ih =>
      rw [List.flatMap_cons] at hnodes ⊢
      have hrest (node : Node) (hnode : node ∈ requests.flatMap nodesOf) : node ∈ nodes :=
        hnodes node (List.mem_append_right _ hnode)
      refine Explores.append hclosed ?_ hrest (.recurseAll htame requests) fun s' hs' => ?_
      · exact explores_recurse hclosed request
          (fun node hnode => hnodes node (List.mem_append_left _ hnode)) (hsearch s Set.Subset.rfl)
      · exact ih hrest fun s'' hs'' => hsearch s'' (hs'.trans hs'')

open Classical in
/-- How many nodes have not been searched. -/
noncomputable def unseen (nodes : Finset Node) (s : SearchState) : ℕ :=
  (nodes.filter (· ∉ seenNodes s)).card

theorem unseen_le {nodes : Finset Node} : unseen nodes s ≤ nodes.card := by
  classical
  exact Finset.card_filter_le _ _

theorem unseen_lt (hid : .calculation id ∈ nodes) (hunseen : .calculation id ∉ seenNodes s)
    (hs' : insert (.calculation id) (seenNodes s) ⊆ seenNodes s') :
    unseen nodes s' < unseen nodes s := by
  classical
  refine Finset.card_lt_card ⟨fun node hnode => ?_, fun h => ?_⟩
  · rw [Finset.mem_filter] at hnode ⊢
    exact ⟨hnode.1, fun hseen => hnode.2 (hs' (Set.mem_insert_of_mem _ hseen))⟩
  · have hmem := h (Finset.mem_filter.mpr ⟨hid, hunseen⟩)
    exact (Finset.mem_filter.mp hmem).2 (hs' (Set.mem_insert _ _))

theorem seenNodes_noted {matching : Bool} :
    seenNodes (noted id matching s) = insert (.calculation id) (seenNodes s) := by
  ext node
  cases node with
  | calculation id' =>
      have hfind : (Assoc.find id' (noted id matching s).isMatching).isSome = true ↔
          id' = id ∨ (Assoc.find id' s.isMatching).isSome = true := by
        rw [noted, Assoc.find_assign]
        by_cases h : id = id'
        · simp [h]
        · simp [h, Ne.symm h]
      rw [Set.mem_insert_iff, calc_mem_seenNodes, calc_mem_seenNodes, hfind, Node.calculation.injEq]
  | malformed ref =>
      refine iff_of_false ?_ ?_
      · rintro ⟨id', h, -⟩
        cases h
      · rintro (h | ⟨id', h, -⟩)
        · cases h
        · cases h

theorem explores_error (hclosed : ∀ x ∈ nodes, ∀ y ∈ succ retrieve x, y ∈ nodes)
    (hid : .calculation id ∈ nodes) (hunseen : .calculation id ∉ seenNodes s) {e : RetrievalError}
    (hretrieve : retrieve id = .error e) :
    Explores retrieve searchString [.calculation id]
      (searchCalculation retrieve staleTag searchString (fuel + 1) id) s := by
  have hexec : (searchCalculation retrieve staleTag searchString (fuel + 1) id).exec s = _ :=
    exec_unseen_error hunseen hretrieve
  cases e with
  | other what =>
      refine Explores.trouble hclosed hid hunseen (by simp [troubled, hretrieve]) ?_
      rw [hexec]
      simp only [AtTrouble, hretrieve]
      exact ⟨rfl, fun id' hid' => (List.mem_cons.mp hid').elim (fun h => .inr (.inr h)) .inl⟩
  | badHttpStatusCode statusCode =>
      by_cases hstatus : statusCode = 404
      · have hsucc : succ retrieve (.calculation id) = [] := by simp only [succ, hretrieve]
        refine Explores.head hunseen (by simp [troubled, hretrieve, hstatus]) (m := pure ()) ?_ ?_
        · rw [hsucc]
          exact Explores.nil rfl
        · subst hstatus
          rw [hexec, isMatch, hretrieve]
          rfl
      · refine Explores.trouble hclosed hid hunseen (by simp [troubled, hretrieve, hstatus]) ?_
        rw [hexec]
        simp only [AtTrouble, hretrieve, if_neg hstatus]
        exact ((Tame.searchStale id (staleTag id)).grows _).retrieved List.mem_cons_self

/-- With more fuel than nodes to search, the search of a calculation follows the traversal. -/
theorem explores_searchCalculation (hclosed : ∀ x ∈ nodes, ∀ y ∈ succ retrieve x, y ∈ nodes)
    (hid : .calculation id ∈ nodes) (hfuel : unseen nodes s < fuel) :
    Explores retrieve searchString [.calculation id]
      (searchCalculation retrieve staleTag searchString fuel id) s := by
  induction fuel generalizing id s with
  | zero => exact absurd hfuel (Nat.not_lt_zero _)
  | succ fuel ih =>
      by_cases hseen : .calculation id ∈ seenNodes s
      · exact ⟨[], .skip hseen .nil, .inl ⟨s, exec_seen hseen, fun _ h => (nomatch h), fun _ => rfl,
          fun _ h => .inl h⟩⟩
      cases hretrieve : retrieve id with
      | error e =>
          exact explores_error hclosed hid hseen hretrieve
      | ok request =>
          cases hresolved : request.isLet || request.isVariable with
          | true =>
              obtain ⟨message, hexec⟩ : ∃ message,
                  (searchCalculation retrieve staleTag searchString (fuel + 1) id).exec s = _ :=
                exec_unresolved hseen hretrieve hresolved
              refine Explores.trouble hclosed hid hseen
                (by simp only [troubled, hretrieve, hresolved]) ?_
              rw [hexec]
              simp only [AtTrouble, hretrieve]
              exact ⟨_, rfl, fun _ => nofun⟩
          | false =>
              have htodo :
                  succ retrieve (.calculation id) = request.substituted.flatMap nodesOf := by
                simp only [succ, hretrieve]
              refine Explores.head hseen (by simp only [troubled, hretrieve, hresolved])
                ?_ (exec_resolved hseen hretrieve hresolved)
              rw [htodo]
              refine explores_recurseAll hclosed (.searchCalculation fuel) _
                (htodo ▸ hclosed _ hid) fun s' hs' id' hid' => ?_
              refine ih hid' ?_
              rw [seenNodes_noted] at hs'
              exact Nat.lt_of_lt_of_le (unseen_lt hid hseen hs') (Nat.le_of_lt_succ hfuel)

end Explores

/-! ## The nodes of a finite graph -/

theorem refers_of_mem_nodesOf {request : CalcRequest} (h : .calculation id ∈ nodesOf request) :
    request = .reference id ∧ getThinknodeServiceId id = .ok .calc := by
  cases request with
  | reference ref =>
      rw [nodesOf] at h
      split at h
      · rename_i hservice
        cases List.mem_singleton.mp h
        exact ⟨rfl, hservice⟩
      · cases h
      · cases List.mem_singleton.mp h
  | _ => cases h

theorem leads_of_mem_succ {id' : Bytes}
    (h : .calculation id' ∈ succ retrieve (.calculation id)) : Leads retrieve id id' := by
  cases hretrieve : retrieve id with
  | error e =>
      rw [succ, hretrieve] at h
      cases h
  | ok request =>
      rw [succ, hretrieve] at h
      obtain ⟨child, hchild, hnode⟩ := List.mem_flatMap.mp h
      obtain ⟨rfl, hcalc⟩ := refers_of_mem_nodesOf hnode
      have hchild := CalcRequest.substituted_subset_children hchild
      exact ⟨request, hretrieve, .child hchild .self, hcalc⟩

/-- What is met can be reached. -/
theorem reachable_of_edges {root : Bytes}
    (h : Relation.ReflTransGen (Visits.Edge (succ retrieve)) (.calculation root)
      (.calculation id)) :
    Reachable retrieve root id := by
  generalize hnode : Node.calculation id = node at h
  induction h generalizing id with
  | refl =>
      cases hnode
      exact .refl
  | @tail before _ _ hedge ih =>
      subst hnode
      cases before with
      | calculation before => exact (ih rfl).tail (leads_of_mem_succ hedge)
      | malformed ref => cases hedge

/-- The nodes of a search among finitely many calculations. -/
theorem exists_nodes {root : Bytes} (hfinite : {id | Reachable retrieve root id}.Finite) :
    ∃ nodes : Finset Node, .calculation root ∈ nodes ∧
      ∀ x ∈ nodes, ∀ y ∈ succ retrieve x, y ∈ nodes := by
  classical
  let after : Finset Node :=
    hfinite.toFinset.biUnion fun id => (succ retrieve (.calculation id)).toFinset
  have hreach {id : Bytes} (hid : Reachable retrieve root id) {y : Node}
      (hy : y ∈ succ retrieve (.calculation id)) : y ∈ after :=
    Finset.mem_biUnion.mpr ⟨id, hfinite.mem_toFinset.mpr hid, List.mem_toFinset.mpr hy⟩
  refine ⟨insert (.calculation root) after, Finset.mem_insert_self _ _, fun x hx y hy => ?_⟩
  refine Finset.mem_insert_of_mem ?_
  rcases Finset.mem_insert.mp hx with rfl | hx
  · exact hreach .refl hy
  · obtain ⟨id, hid, hx⟩ := Finset.mem_biUnion.mp hx
    cases x with
    | calculation id' =>
        have hleads := leads_of_mem_succ (List.mem_toFinset.mp hx)
        exact hreach ((hfinite.mem_toFinset.mp hid).tail hleads) hy
    | malformed ref => cases hy

/-! ## What comes of a search -/

section Result
variable {root : Bytes} {met : List Node} {before after : List Node}

theorem retrievable_of_untroubled (h : troubled retrieve (.calculation id) = false) :
    Retrievable retrieve id := by
  intro e he
  simpa [troubled, he] using h

theorem mem_matches (hsorted : Assoc.Sorted s.isMatching) :
    id ∈ (s.isMatching.filter Prod.snd).map Prod.fst ↔ Assoc.find id s.isMatching = some true := by
  rw [← Assoc.mem_iff_find hsorted.nodup, List.mem_map]
  constructor
  · rintro ⟨⟨id', matching⟩, hmem, rfl⟩
    obtain ⟨hmem, rfl⟩ := List.mem_filter.mp hmem
    exact hmem
  · exact fun hmem => ⟨(id, true), List.mem_filter.mpr ⟨hmem, rfl⟩, rfl⟩

theorem searchMatches_error {e : SearchException} :
    searchMatches retrieve staleTag searchString fuel root = .error e ↔
      (run retrieve staleTag searchString fuel root).1 = .error e := by
  rw [searchMatches]
  rcases run retrieve staleTag searchString fuel root with ⟨_ | _, s⟩ <;> simp

theorem reachable_of_mem (hvisits : Visits (succ retrieve) [.calculation root] ∅ met)
    (hid : .calculation id ∈ met) : Reachable retrieve root id := by
  obtain ⟨node, hnode, hedges⟩ := hvisits.reachable hid
  rw [List.mem_singleton.mp hnode] at hedges
  exact reachable_of_edges hedges

/-- Where there was no trouble, what was not met decides. -/
theorem meetsSpec_of_done (hvisits : Visits (succ retrieve) [.calculation root] ∅ met)
    (hsorted : Assoc.Sorted (run retrieve staleTag searchString fuel root).2.isMatching)
    (h : Done retrieve searchString met {} (run retrieve staleTag searchString fuel root)) :
    MeetsSpec retrieve searchString root (searchMatches retrieve staleTag searchString fuel root)
        (run retrieve staleTag searchString fuel root).2.retrieved ↔
      ∀ id, Reachable retrieve root id → .calculation id ∉ met →
        Retrievable retrieve id ∧ ¬ Matching retrieve searchString id := by
  obtain ⟨s', hrun, hmet, hfind, hretrieved⟩ := h
  rw [hrun] at hsorted
  have hretrievable (id : Bytes) (hid : .calculation id ∈ met) : Retrievable retrieve id :=
    retrievable_of_untroubled (hmet _ hid)
  have hids (id : Bytes) : id ∈ (s'.isMatching.filter Prod.snd).map Prod.fst ↔
      .calculation id ∈ met ∧ Matching retrieve searchString id := by
    rw [mem_matches hsorted, hfind]
    by_cases hid : .calculation id ∈ met
    · rw [if_pos hid, Option.some.injEq, isMatch_iff]
      exact (and_iff_right hid).symm
    · rw [if_neg hid]
      exact iff_of_false nofun fun h => hid h.1
  rw [searchMatches, hrun]
  constructor
  · rintro ⟨-, ⟨ids, hok, hall, hexact⟩ | ⟨id, e, -, -, -, herror⟩⟩
    · cases hok
      refine fun id hid hnot => ⟨hall id hid, fun hmatching => hnot ?_⟩
      exact ((hids id).mp ((hexact id).mpr ⟨hid, hmatching⟩)).1
    · cases herror
  · intro hunmet
    refine ⟨fun id hid e he hne => ?_, .inl ⟨_, rfl, fun id hid => ?_, fun id => ?_⟩⟩
    · have hmem := (hretrieved id hid).resolve_left List.not_mem_nil
      exact absurd (hretrievable id hmem e he) hne
    · by_cases hmem : .calculation id ∈ met
      · exact hretrievable id hmem
      · exact (hunmet id hid hmem).1
    · rw [hids]
      refine ⟨fun h => ⟨reachable_of_mem hvisits h.1, h.2⟩, fun h => ⟨?_, h.2⟩⟩
      by_contra hmem
      exact (hunmet id h.1 hmem).2 h.2

/-- Where there was trouble, the first such node decides. -/
theorem meetsSpec_of_stopped (hvisits : Visits (succ retrieve) [.calculation root] ∅ met)
    {node : Node} (hmet : met = before ++ node :: after)
    (hbefore : ∀ node ∈ before, troubled retrieve node = false)
    (hnode : troubled retrieve node = true)
    (h : AtTrouble retrieve before {} (run retrieve staleTag searchString fuel root) node) :
    MeetsSpec retrieve searchString root (searchMatches retrieve staleTag searchString fuel root)
        (run retrieve staleTag searchString fuel root).2.retrieved ↔
      propagates retrieve node = true := by
  have hnot {e : SearchException}
      (he : (run retrieve staleTag searchString fuel root).1 = .error e)
      (hother : ∀ e', e ≠ .retrieval e') :
      ¬ MeetsSpec retrieve searchString root
        (searchMatches retrieve staleTag searchString fuel root)
        (run retrieve staleTag searchString fuel root).2.retrieved := by
    rw [searchMatches_error.mpr he]
    rintro ⟨-, ⟨ids, hok, -⟩ | ⟨id, e', -, -, -, herror⟩⟩
    · cases hok
    · cases herror
      exact hother e' rfl
  cases node with
  | malformed ref =>
      obtain ⟨e, he, hother⟩ := h
      exact iff_of_false (hnot he hother) Bool.false_ne_true
  | calculation id =>
      cases hretrieve : retrieve id with
      | ok request =>
          simp only [AtTrouble, hretrieve] at h
          obtain ⟨e, he, hother⟩ := h
          exact iff_of_false (hnot he hother) (by simp [propagates, hretrieve])
      | error e =>
          cases e with
          | other what =>
              simp only [AtTrouble, hretrieve] at h
              obtain ⟨he, hretrieved⟩ := h
              refine iff_of_true ⟨fun id' hid' e he' hne => ?_, .inr ⟨id, _, ?_, hretrieve, nofun,
                searchMatches_error.mpr he⟩⟩ (by simp [propagates, hretrieve])
              · rcases hretrieved id' hid' with hid' | hid' | rfl
                · cases hid'
                · exact absurd (retrievable_of_untroubled (hbefore _ hid') e he') hne
                · cases hretrieve.symm.trans he'
                  exact searchMatches_error.mpr he
              · exact reachable_of_mem hvisits (hmet ▸ List.mem_append_cons_self)
          | badHttpStatusCode statusCode =>
              simp only [AtTrouble, hretrieve] at h
              refine iff_of_false (fun hspec => ?_) (by simp [propagates, hretrieve])
              -- The failure would have to be thrown, but it was caught.
              have hthrown := hspec.1 id h _ hretrieve (by simpa [troubled, hretrieve] using hnode)
              exact (Tame.searchCalculation fuel root).throws {} _
                (searchMatches_error.mp hthrown) statusCode rfl

/-- On finitely many calculations, with more fuel than nodes. -/
theorem meetsSpec_iff {nodes : Finset Node} (hroot : .calculation root ∈ nodes)
    (hclosed : ∀ x ∈ nodes, ∀ y ∈ succ retrieve x, y ∈ nodes) (hfuel : nodes.card < fuel) :
    MeetsSpec retrieve searchString root (searchMatches retrieve staleTag searchString fuel root)
        (run retrieve staleTag searchString fuel root).2.retrieved ↔
      MeetsAll retrieve searchString root := by
  have hstart : seenNodes {} = ∅ := by
    refine Set.eq_empty_iff_forall_notMem.mpr ?_
    rintro node ⟨id, -, h⟩
    exact Bool.false_ne_true h
  have hexplores : Explores retrieve searchString [.calculation root]
      (searchCalculation retrieve staleTag searchString fuel root) {} :=
    explores_searchCalculation hclosed hroot (Nat.lt_of_le_of_lt unseen_le hfuel)
  obtain ⟨met, hvisits, hout⟩ := hexplores
  rw [hstart] at hvisits
  have hmeets : MeetsAll retrieve searchString root ↔ _ :=
    ⟨fun h => h met hvisits, fun h met' hvisits' => hvisits.unique hvisits' ▸ h⟩
  rw [hmeets]
  rcases hout with hdone | ⟨before, node, after, hmet, hbefore, hnode, htrouble⟩
  · have hfind : met.find? (troubled retrieve) = none := by
      obtain ⟨-, -, hmet, -⟩ := hdone
      exact List.find?_eq_none.mpr fun node hnode => by simp [hmet node hnode]
    have hsorted : Assoc.Sorted (run retrieve staleTag searchString fuel root).2.isMatching :=
      ((Tame.searchCalculation fuel root).grows {}).sorted List.Pairwise.nil
    rw [hfind]
    exact meetsSpec_of_done hvisits hsorted hdone
  · have hfind : met.find? (troubled retrieve) = some node := by
      have hnone : before.find? (troubled retrieve) = none :=
        List.find?_eq_none.mpr fun node hnode => by simp [hbefore node hnode]
      rw [hmet, List.find?_append, hnone]
      exact List.find?_cons_of_pos hnode
    rw [hfind]
    exact meetsSpec_of_stopped hvisits hmet hbefore hnode htrouble

/-- The search ends, and its result is exact only as the traversal is. -/
theorem searchesExactly_iff (hfinite : {id | Reachable retrieve root id}.Finite) :
    SearchesExactly retrieve staleTag searchString root ↔ MeetsAll retrieve searchString root := by
  obtain ⟨nodes, hroot, hclosed⟩ := exists_nodes hfinite
  constructor
  · rintro ⟨enough, h⟩
    have hmore : nodes.card < max enough (nodes.card + 1) :=
      Nat.lt_of_lt_of_le (Nat.lt_succ_self _) (Nat.le_max_right ..)
    exact (meetsSpec_iff hroot hclosed hmore).mp (h _ (Nat.le_max_left ..))
  · exact fun h => ⟨nodes.card + 1, fun more hmore => (meetsSpec_iff hroot hclosed hmore).mpr h⟩

end Result

/-! ## Two servers -/

/-- The ID `_________10` of a calculation. -/
def someCalculation : Bytes := List.replicate 9 0x5f ++ [0x31, 0x30]

/-- Every calculation applies a function to the one calculation. -/
def appliesToItself (_ : Bytes) : Except RetrievalError CalcRequest :=
  .ok (.function [] [] [0x66, 0x67] none [.reference someCalculation])

theorem appliesToItself_exact :
    {id | Reachable appliesToItself someCalculation id}.Finite ∧
      SearchesExactly appliesToItself (fun _ => none) [0x67] someCalculation := by
  have hreach (id : Bytes) (h : Reachable appliesToItself someCalculation id) :
      id = someCalculation := by
    induction h with
    | refl => rfl
    | tail _ hleads _ =>
        obtain ⟨request, hrequest, hrefers, -⟩ := hleads
        cases hrequest
        cases hrefers with
        | child hchild hrefers =>
            cases List.mem_singleton.mp hchild
            cases hrefers with
            | self => rfl
            | child hchild _ => cases hchild
  have hfinite : {id | Reachable appliesToItself someCalculation id}.Finite :=
    (Set.finite_singleton someCalculation).subset hreach
  have hvisits : Visits (succ appliesToItself) [.calculation someCalculation] ∅
      [.calculation someCalculation] :=
    .visit (Set.notMem_empty _) (.skip (Set.mem_insert _ _) .nil)
  refine ⟨hfinite, (searchesExactly_iff hfinite).mpr fun met hmet => ?_⟩
  rw [hmet.unique hvisits]
  exact fun id hid hunmet => absurd (hreach id hid ▸ List.mem_singleton_self _) hunmet

/-- The server fails for every ID. -/
def serverError (_ : Bytes) : Except RetrievalError CalcRequest :=
  .error (.badHttpStatusCode 500)

/-- The failure is not thrown again; with the right tag there are simply no matches. -/
theorem serverError_swallowed :
    {id | Reachable serverError someCalculation id}.Finite ∧
      (∀ id request, serverError id = .ok request → IsShallow request) ∧
      (∀ staleTag, ¬ SearchesExactly serverError staleTag [] someCalculation) ∧
      ∀ fuel, searchMatches serverError (fun _ => some .value) [] (fuel + 1) someCalculation
        = .ok [] := by
  have hreach (id : Bytes) (h : Reachable serverError someCalculation id) :
      id = someCalculation := by
    induction h with
    | refl => rfl
    | tail _ hleads _ =>
        obtain ⟨request, hrequest, -⟩ := hleads
        cases hrequest
  refine ⟨(Set.finite_singleton someCalculation).subset hreach, fun _ _ h => (nomatch h),
    fun staleTag => ?_, fun _ => rfl⟩
  rintro ⟨fuel, h⟩
  have hnodes : ({.calculation someCalculation} : Finset Node).card < fuel + 2 := by
    rw [Finset.card_singleton]
    exact Nat.lt_of_lt_of_le (Nat.lt_succ_self 1) (Nat.le_add_left 2 fuel)
  have hclosed : ∀ x ∈ ({.calculation someCalculation} : Finset Node), ∀ y ∈ succ serverError x,
      y ∈ ({.calculation someCalculation} : Finset Node) := by
    intro x hx y hy
    rw [Finset.mem_singleton.mp hx] at hy
    cases hy
  have hmeets := (meetsSpec_iff (Finset.mem_singleton_self _) hclosed hnodes).mp
    (h (fuel + 2) (Nat.le_add_right fuel 2))
  have hvisits : Visits (succ serverError) [.calculation someCalculation] ∅
      [.calculation someCalculation] := .visit (Set.notMem_empty _) .nil
  exact Bool.false_ne_true (hmeets _ hvisits)

end Cradle.Thinknode.Search
