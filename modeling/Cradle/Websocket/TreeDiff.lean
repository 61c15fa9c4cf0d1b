import Cradle.Lib.LinkedDiff
import Cradle.Thinknode.SearchCalculation
import Cradle.Typing.DiffRoundTrip

/-!
# Differences of object trees

Two ISS objects, or two calculations, are compared in two contexts.  Where both have IDs at the same
place, the objects with these IDs are compared instead, and so on.  The result is a list of
differences, each for a pair of objects and with the path from the first pair.

The server is outside the source: what it answers is a parameter.
-/

namespace Cradle

open Cradle.Dynamic LinkedDiff Thinknode

/-- What can end a comparison.  `undefined` is no exception of the source, but a use of an iterator
or an optional value that is not defined. -/
inductive TreeFault
  | request (what : Bytes)
  | diff (e : DiffFault)
  | service (e : SearchException)
  | typeMismatch
  | undefined
  deriving DecidableEq, Repr

/-- What is asked of the server: an object in a context, and a calculation in a context. -/
structure TreeReads where
  getIssObject : Bytes → Bytes → Except TreeFault Dynamic
  retrieveCalculationRequest : Bytes → Bytes → Except TreeFault CalcRequest
  toDynamic : CalcRequest → Dynamic

/-- The IDs of the two objects to be compared, and the service that they come from. -/
structure TreePair where
  service : ThinknodeServiceId
  idInA : Bytes
  idInB : Bytes
  deriving DecidableEq, Repr

/-- `object_node_diff`. -/
abbrev ObjectNodeDiff := NodeDiff TreePair ValueDiffItem Dynamic

/-- `object_tree_diff`. -/
abbrev ObjectTreeDiff := List ObjectNodeDiff

/-- What is to be compared instead of an item, and the path from the root to it. -/
abbrev TreeLink := Link TreeFault TreePair Dynamic

/-- `is_iss_id`. -/
def isIssId : Dynamic → Bool
  | .string id => id.length = 32 &&
      match getThinknodeServiceId id with
      | .ok service => service = .iss
      | .error _ => false
  | _ => false

/-- `cast<string>` of an ID. -/
def castId : Dynamic → Except TreeFault Bytes
  | .string id => .ok id
  | _ => .error .typeMismatch

/-- The path without its last element: from `begin()` to `end() - 1`. -/
def pathToParent (path : List Dynamic) : Except TreeFault (List Dynamic) :=
  if path.isEmpty then .error .undefined else .ok path.dropLast

/-- `process_iss_tree_subdiff`. -/
def processIssTreeSubdiff (item : ValueDiffItem) : Except TreeFault (Option TreeLink) :=
  match item.a, item.b with
  | some a, some b =>
      if isIssId a && isIssId b then do
        return some (⟨.iss, ← castId a, ← castId b⟩, pathToParent item.path)
      else .ok none
  | _, _ => .ok none

/-- `"reference"`. -/
def referenceField : Bytes := ascii ['r', 'e', 'f', 'e', 'r', 'e', 'n', 'c', 'e']

/-- Whether the item is about the IDs of two reference requests. -/
def isReferenceUpdate (item : ValueDiffItem) : Bool :=
  item.op = .update &&
    match item.path.getLast? with
    | some last => last.equals (.string referenceField)
    | none => false

/-- `process_calc_tree_subdiff`. -/
def processCalcTreeSubdiff (item : ValueDiffItem) : Except TreeFault (Option TreeLink) :=
  if isReferenceUpdate item then
    match item.a, item.b with
    | some a, some b => do
        let idA ← castId a
        let idB ← castId b
        let serviceA ← (getThinknodeServiceId idA).mapError .service
        let serviceB ← (getThinknodeServiceId idB).mapError .service
        let service := if serviceA = .calc ∧ serviceB = .calc then .calc else .iss
        return some (⟨service, idA, idB⟩, pathToParent item.path)
    | _, _ => .error .undefined
  else .ok none

section
variable (reads : TreeReads) (abi : Abi) (contextIdA contextIdB : Bytes)

/-- One side of a pair, in its context. -/
def readNode (service : ThinknodeServiceId) (contextId id : Bytes) : Except TreeFault Dynamic :=
  match service with
  | .calc => (reads.retrieveCalculationRequest contextId id).map reads.toDynamic
  | _ => reads.getIssObject contextId id

/-- The comparison with which `compute_iss_tree_diff` and `compute_calc_tree_diff` start. -/
def compareNodes (pair : TreePair) : Except TreeFault ValueDiff := do
  let a ← readNode reads pair.service contextIdA pair.idInA
  let b ← readNode reads pair.service contextIdB pair.idInB
  (computeValueDiff abi a b).mapError .diff

/-- What becomes of an item of the comparison. -/
def processTreeSubdiff (pair : TreePair) (item : ValueDiffItem) :
    Except TreeFault (Option TreeLink) :=
  match pair.service with
  | .calc => processCalcTreeSubdiff item
  | _ => processIssTreeSubdiff item

/-- `compute_iss_tree_diff` and `compute_calc_tree_diff`, which call each other: they differ in
what they get from the server, and in the items that lead on. -/
def computeTreeDiff : ℕ → TreePair → Bounded TreeFault ObjectTreeDiff :=
  treeDiff (compareNodes reads abi contextIdA contextIdB) processTreeSubdiff

/-- `compute_iss_tree_diff`. -/
def computeIssTreeDiff (fuel : ℕ) (objectIdA objectIdB : Bytes) :
    Bounded TreeFault ObjectTreeDiff :=
  computeTreeDiff reads abi contextIdA contextIdB fuel ⟨.iss, objectIdA, objectIdB⟩

/-- `compute_calc_tree_diff`. -/
def computeCalcTreeDiff (fuel : ℕ) (calcIdA calcIdB : Bytes) : Bounded TreeFault ObjectTreeDiff :=
  computeTreeDiff reads abi contextIdA contextIdB fuel ⟨.calc, calcIdA, calcIdB⟩

end

/-! ## Values that are the same up to links -/

/-- The values at a path are the same, except that they have linked values at the same places. -/
inductive SameUpTo (R : List Dynamic → Dynamic → Dynamic → Prop) :
    List Dynamic → Dynamic → Dynamic → Prop
  | equal {path a b} (h : a.equals b = true) : SameUpTo R path a b
  | linked {path a b} (h : R path a b) : SameUpTo R path a b
  | array {path as bs} (hlen : as.length = bs.length)
      (h : ∀ (i : ℕ) x y, as[i]? = some x → bs[i]? = some y →
        SameUpTo R (extendPath path (.integer i)) x y) :
      SameUpTo R path (.array as) (.array bs)
  | map {path as bs} (hkeys : List.Forall₂ (fun f g => f.1.equals g.1 = true) as bs)
      (h : ∀ (i : ℕ) k x l y, as[i]? = some (k, x) → bs[i]? = some (l, y) →
        SameUpTo R (extendPath path k) x y) :
      SameUpTo R path (.map as) (.map bs)

section
variable {abi : Abi} {R : List Dynamic → Dynamic → Dynamic → Prop} {path : List Dynamic}

/-- The item is about linked values. -/
def IsLink (R : List Dynamic → Dynamic → Dynamic → Prop) (item : ValueDiffItem) : Prop :=
  ∃ a b, item.a = some a ∧ item.b = some b ∧ R item.path a b

theorem isLink_update {a b : Dynamic} : IsLink R (makeUpdateItem path a b) ↔ R path a b := by
  simp [IsLink, makeUpdateItem]

theorem not_isLink_insert {b : Dynamic} : ¬ IsLink R (makeInsertItem path b) := by
  simp [IsLink, makeInsertItem]

theorem not_isLink_delete {a : Dynamic} : ¬ IsLink R (makeDeleteItem path a) := by
  simp [IsLink, makeDeleteItem]

theorem eq_nil_of_insertItems {index : ℕ} {items : List Dynamic}
    (h : ∀ item ∈ insertItems path index items, IsLink R item) :
    insertItems path index items = [] := by
  cases items with
  | nil => rfl
  | cons x xs => exact absurd (h _ List.mem_cons_self) not_isLink_insert

theorem eq_nil_of_deleteItems {index : ℕ} {items : List Dynamic}
    (h : ∀ item ∈ deleteItems path index items, IsLink R item) :
    deleteItems path index items = [] := by
  cases items with
  | nil => rfl
  | cons x xs =>
      exact absurd (h _ (List.mem_append_right _ List.mem_cons_self)) not_isLink_delete

/-- The items of two arrays of one size. -/
theorem sameUpTo_of_itemDiffs {as bs : List Dynamic} {i : ℕ} {d : ValueDiff}
    (ih : ∀ x ∈ as, ∀ y path d, computeDiffAt abi x path y = .ok d →
      (∀ item ∈ d, IsLink R item) → SameUpTo R path x y)
    (hd : itemDiffs abi as path i bs = .ok d) (hlinks : ∀ item ∈ d, IsLink R item) :
    ∀ (j : ℕ) x y, as[j]? = some x → bs[j]? = some y →
      SameUpTo R (extendPath path (.integer (i + j : ℕ))) x y := by
  induction as generalizing bs i d with
  | nil =>
      intro j x y hx
      simp at hx
  | cons x as iha =>
      cases bs with
      | nil =>
          intro j x y _ hy
          simp at hy
      | cons y bs =>
          obtain ⟨ihx, ihas⟩ := List.forall_mem_cons.mp ih
          obtain ⟨c, e, hc, he, rfl⟩ := itemDiffs_cons_eq_ok.mp hd
          rw [List.forall_mem_append] at hlinks
          intro j u v hu hv
          cases j with
          | zero =>
              cases hu
              cases hv
              exact ihx y _ c hc hlinks.1
          | succ j =>
              rw [← Nat.succ_add_eq_add_succ]
              exact iha ihas he hlinks.2 j u v (by simpa using hu) (by simpa using hv)

/-- The fields of two maps: where what is different is linked, none is missing. -/
theorem sameUpTo_of_fieldDiffs {as bs : List (Dynamic × Dynamic)} {d : ValueDiff}
    (ih : ∀ f ∈ as, ∀ y path d, computeDiffAt abi f.2 path y = .ok d →
      (∀ item ∈ d, IsLink R item) → SameUpTo R path f.2 y)
    (hd : fieldDiffs abi as path bs = .ok d) (hlinks : ∀ item ∈ d, IsLink R item) :
    List.Forall₂ (fun f g => f.1.equals g.1 = true) as bs ∧
      ∀ (i : ℕ) k x l y, as[i]? = some (k, x) → bs[i]? = some (l, y) →
        SameUpTo R (extendPath path k) x y := by
  induction as generalizing bs d with
  | nil =>
      simp only [fieldDiffs, Except.ok.injEq] at hd
      subst hd
      cases bs with
      | nil => exact ⟨.nil, fun i k x l y hx => by simp at hx⟩
      | cons g bs => exact absurd (hlinks _ List.mem_cons_self) not_isLink_insert
  | cons f as iha =>
      obtain ⟨k, x⟩ := f
      obtain ⟨ihx, ihas⟩ := List.forall_mem_cons.mp ih
      simp only [fieldDiffs] at hd
      cases bs with
      | nil =>
          obtain ⟨e, -, he⟩ := Except.bind_eq_ok.mp hd
          cases he
          exact absurd (hlinks _ List.mem_cons_self) not_isLink_delete
      | cons g bs =>
          obtain ⟨l, y⟩ := g
          rw [walkFields] at hd
          split at hd
          case isTrue heq =>
            obtain ⟨c, hc, hd⟩ := Except.bind_eq_ok.mp hd
            obtain ⟨e, he, hd⟩ := Except.bind_eq_ok.mp hd
            cases hd
            rw [List.forall_mem_append] at hlinks
            obtain ⟨hkeys, hvalues⟩ := iha ihas he hlinks.2
            refine ⟨.cons heq hkeys, fun i k' u l' v hu hv => ?_⟩
            cases i with
            | zero =>
                cases hu
                cases hv
                exact ihx y _ c hc hlinks.1
            | succ i => exact hvalues i k' u l' v (by simpa using hu) (by simpa using hv)
          case isFalse =>
            -- a field that only one of the maps has is not about linked values
            split at hd
            · obtain ⟨e, -, he⟩ := Except.bind_eq_ok.mp hd
              cases he
              exact absurd (hlinks _ List.mem_cons_self) not_isLink_delete
            · obtain ⟨e, -, he⟩ := Except.bind_eq_ok.mp hd
              cases he
              exact absurd (hlinks _ List.mem_cons_self) not_isLink_insert

theorem sameUpTo_of_update {a b : Dynamic}
    (hlinks : ∀ item ∈ [makeUpdateItem path a b], IsLink R item) : SameUpTo R path a b :=
  .linked (isLink_update.mp (hlinks _ (List.mem_singleton.mpr rfl)))

/-- Two values whose diff is about linked values only are the same up to these. -/
theorem sameUpTo_of_links {a b : Dynamic} {d : ValueDiff} (hd : computeDiffAt abi a path b = .ok d)
    (hlinks : ∀ item ∈ d, IsLink R item) : SameUpTo R path a b := by
  induction a, b using diff_induction generalizing path d with
  | equal a b heq => exact .equal heq
  | other a b hne hi =>
      rw [computeDiffAt_incomparable hne hi, Except.ok.injEq] at hd
      subst hd
      exact sameUpTo_of_update hlinks
  | map as bs hne ih =>
      rw [computeDiffAt_map hne, computeMapDiff_eq_ok] at hd
      obtain ⟨c, hc, hsmaller⟩ := hd
      obtain ⟨m, n, -, -, rfl⟩ := smallerEncoded_eq_ok.mp hsmaller
      split at hlinks
      · obtain ⟨hkeys, hvalues⟩ := sameUpTo_of_fieldDiffs
          (fun f hf y _ _ hd hlinks => ih f hf y hd hlinks) hc hlinks
        exact .map hkeys hvalues
      · exact sameUpTo_of_update hlinks
  | array as bs hne ih =>
      rw [computeDiffAt_array hne, computeArrayDiff_eq_ok] at hd
      obtain ⟨c, hc, rfl⟩ := hd
      rw [ValueDiff.smallerDeep] at hlinks
      split at hlinks
      case isFalse => exact sameUpTo_of_update hlinks
      case isTrue hsmaller =>
        have hne : c ≠ [] := by
          rintro rfl
          simp at hsmaller
        rcases Nat.lt_trichotomy as.length bs.length with hlt | heq | hgt
        · rw [compressedArrayDiff_longer hlt] at hc
          cases hr : detectInsertion as bs with
          | error e =>
              rw [hr] at hc
              cases hc
          | ok r =>
              rw [hr] at hc
              cases hc
              cases r with
              | none => exact absurd rfl hne
              | some ins => exact absurd (eq_nil_of_insertItems hlinks) hne
        · rw [compressedArrayDiff_same heq] at hc
          refine .array heq fun j x y hx hy => ?_
          have hitem := sameUpTo_of_itemDiffs
            (fun x hx y _ _ hd hlinks => ih x hx y hd hlinks) hc hlinks j x y hx hy
          rwa [Nat.zero_add] at hitem
        · rw [compressedArrayDiff_shorter hgt] at hc
          cases hr : detectInsertion bs as with
          | error e =>
              rw [hr] at hc
              cases hc
          | ok r =>
              rw [hr] at hc
              cases hc
              cases r with
              | none => exact absurd rfl hne
              | some rem => exact absurd (eq_nil_of_deleteItems hlinks) hne

end

/-! ## What leads on -/

/-- Where two values at a path are IDs that are compared instead. -/
inductive LinksTo : ThinknodeServiceId → List Dynamic → Dynamic → Dynamic → TreePair → Prop
  | iss {service path a b} (hservice : service ≠ .calc) (ha : isIssId (.string a) = true)
      (hb : isIssId (.string b) = true) :
      LinksTo service path (.string a) (.string b) ⟨.iss, a, b⟩
  | calc {path a b} (hlast : path.getLast? = some (.string referenceField))
      (ha : getThinknodeServiceId a = .ok .calc) (hb : getThinknodeServiceId b = .ok .calc) :
      LinksTo .calc path (.string a) (.string b) ⟨.calc, a, b⟩
  | mixed {path a b serviceA serviceB} (hlast : path.getLast? = some (.string referenceField))
      (ha : getThinknodeServiceId a = .ok serviceA) (hb : getThinknodeServiceId b = .ok serviceB)
      (hne : ¬ (serviceA = .calc ∧ serviceB = .calc)) :
      LinksTo .calc path (.string a) (.string b) ⟨.iss, a, b⟩

section
variable {pair child : TreePair} {item : ValueDiffItem} {path : Except TreeFault (List Dynamic)}

theorem castId_eq_ok {v : Dynamic} {id : Bytes} : castId v = .ok id ↔ v = .string id := by
  cases v <;> simp [castId]

theorem mapError_eq_ok {ε ε' α : Type} {x : Except ε α} {f : ε → ε'} {a : α} :
    x.mapError f = .ok a ↔ x = .ok a := by
  cases x <;> simp [Except.mapError]

theorem exists_string_of_isIssId {v : Dynamic} (h : isIssId v = true) : ∃ id, v = .string id := by
  cases v <;> simp [isIssId] at h
  exact ⟨_, rfl⟩

theorem isReferenceUpdate_iff : isReferenceUpdate item = true ↔
    item.op = .update ∧ item.path.getLast? = some (.string referenceField) := by
  rw [isReferenceUpdate]
  cases item.path.getLast? with
  | none => simp
  | some last =>
      have hlast : last.equals (string referenceField) = true ↔ last = string referenceField := by
        cases last <;> simp [equals]
      simp [hlast]

theorem linksTo_of_processIssTreeSubdiff (hservice : pair.service ≠ .calc)
    (h : processIssTreeSubdiff item = .ok (some (child, path))) :
    ∃ a b, item.a = some a ∧ item.b = some b ∧ LinksTo pair.service item.path a b child := by
  rw [processIssTreeSubdiff] at h
  split at h
  case h_1 a b ha hb =>
      split at h
      case isTrue hids =>
          rw [Bool.and_eq_true] at hids
          obtain ⟨idA, rfl⟩ := exists_string_of_isIssId hids.1
          obtain ⟨idB, rfl⟩ := exists_string_of_isIssId hids.2
          cases h
          exact ⟨_, _, ha, hb, .iss hservice hids.1 hids.2⟩
      case isFalse => cases h
  case h_2 => cases h

theorem linksTo_of_processCalcTreeSubdiff (hservice : pair.service = .calc)
    (h : processCalcTreeSubdiff item = .ok (some (child, path))) :
    ∃ a b, item.a = some a ∧ item.b = some b ∧ LinksTo pair.service item.path a b child := by
  rw [processCalcTreeSubdiff] at h
  split at h
  case isFalse => cases h
  case isTrue hreference =>
      obtain ⟨-, hlast⟩ := isReferenceUpdate_iff.mp hreference
      split at h
      case h_2 => cases h
      case h_1 a b ha hb =>
          simp only [bind, Except.bind_eq_ok, castId_eq_ok, mapError_eq_ok] at h
          obtain ⟨idA, rfl, idB, rfl, serviceA, hserviceA, serviceB, hserviceB, h⟩ := h
          cases h
          refine ⟨_, _, ha, hb, ?_⟩
          rw [hservice]
          by_cases hcalc : serviceA = .calc ∧ serviceB = .calc
          · rw [if_pos hcalc]
            rw [hcalc.1] at hserviceA
            rw [hcalc.2] at hserviceB
            exact .calc hlast hserviceA hserviceB
          · rw [if_neg hcalc]
            exact .mixed hlast hserviceA hserviceB hcalc

/-- An item is only followed where both sides are IDs. -/
theorem linksTo_of_processTreeSubdiff
    (h : processTreeSubdiff pair item = .ok (some (child, path))) :
    ∃ a b, item.a = some a ∧ item.b = some b ∧ LinksTo pair.service item.path a b child := by
  by_cases hservice : pair.service = .calc
  · rw [processTreeSubdiff, hservice] at h
    exact linksTo_of_processCalcTreeSubdiff hservice h
  · rw [processTreeSubdiff] at h
    split at h
    case h_1 hcalc => exact absurd hcalc hservice
    case h_2 => exact linksTo_of_processIssTreeSubdiff hservice h

end

/-! ## Trees without a difference -/

section
variable {reads : TreeReads} {abi : Abi} {contextIdA contextIdB : Bytes}

variable (reads contextIdA contextIdB) in
/-- The two trees are the same, except for the IDs in them, down to some depth. -/
def SameTreeWithin : ℕ → TreePair → Prop
  | 0, _ => False
  | depth + 1, pair => ∃ a b, readNode reads pair.service contextIdA pair.idInA = .ok a ∧
      readNode reads pair.service contextIdB pair.idInB = .ok b ∧
        SameUpTo (fun path u v => ∃ child, LinksTo pair.service path u v child ∧
          SameTreeWithin depth child) [] a b

variable (reads contextIdA contextIdB) in
/-- The two trees are the same, except for the IDs in them. -/
def SameTree (pair : TreePair) : Prop :=
  ∃ depth, SameTreeWithin reads contextIdA contextIdB depth pair

theorem compareNodes_eq_ok {pair : TreePair} {items : ValueDiff} :
    compareNodes reads abi contextIdA contextIdB pair = .ok items ↔
      ∃ a b, readNode reads pair.service contextIdA pair.idInA = .ok a ∧
        readNode reads pair.service contextIdB pair.idInB = .ok b ∧
          computeValueDiff abi a b = .ok items := by
  simp only [compareNodes, bind, Except.bind_eq_ok, mapError_eq_ok]
  constructor
  · rintro ⟨a, ha, b, hb, h⟩
    exact ⟨a, b, ha, hb, h⟩
  · rintro ⟨a, b, ha, hb, h⟩
    exact ⟨a, ha, b, hb, h⟩

/-- No difference is lost: where a comparison of two trees reports nothing, they are the same
except for the IDs in them. -/
theorem sameTree_of_computeTreeDiff {fuel : ℕ} {pair : TreePair}
    (h : (computeTreeDiff reads abi contextIdA contextIdB fuel pair).Returns []) :
    SameTree reads contextIdA contextIdB pair := by
  refine ⟨fuel, ?_⟩
  induction fuel generalizing pair with
  | zero => exact absurd h Bounded.not_returns_exhausted
  | succ fuel ih =>
      obtain ⟨items, hitems, hlinks⟩ := treeDiff_eq_nil_iff.mp h
      obtain ⟨a, b, ha, hb, hdiff⟩ := compareNodes_eq_ok.mp hitems
      refine ⟨a, b, ha, hb, sameUpTo_of_links hdiff fun item hitem => ?_⟩
      obtain ⟨child, path, hlink, hbelow⟩ := hlinks item hitem
      obtain ⟨u, v, hu, hv, hto⟩ := linksTo_of_processTreeSubdiff hlink
      exact ⟨u, v, hu, hv, child, hto, ih hbelow⟩

/-- A comparison that returns reports a difference for exactly those pairs that links lead to and
whose diff has other items than links, with the path along which the links lead there. -/
theorem mem_computeTreeDiff_iff {fuel : ℕ} {pair : TreePair} {nodes : ObjectTreeDiff}
    (h : (computeTreeDiff reads abi contextIdA contextIdB fuel pair).Returns nodes)
    (node : ObjectNodeDiff) :
    node ∈ nodes ↔
      Leads (compareNodes reads abi contextIdA contextIdB) processTreeSubdiff pair node.path
        node.pair ∧
      ∃ a b items, readNode reads node.pair.service contextIdA node.pair.idInA = .ok a ∧
        readNode reads node.pair.service contextIdB node.pair.idInB = .ok b ∧
          computeValueDiff abi a b = .ok items ∧
            node.items = remaining processTreeSubdiff node.pair items ∧ node.items ≠ [] := by
  rw [computeTreeDiff] at h
  rw [mem_treeDiff_iff h]
  refine and_congr_right fun _ => ?_
  constructor
  · rintro ⟨items, hitems, hrest⟩
    obtain ⟨a, b, ha, hb, hdiff⟩ := compareNodes_eq_ok.mp hitems
    exact ⟨a, b, items, ha, hb, hdiff, hrest⟩
  · rintro ⟨a, b, items, ha, hb, hdiff, hrest⟩
    exact ⟨items, compareNodes_eq_ok.mpr ⟨a, b, ha, hb, hdiff⟩, hrest⟩

end

/-! ## Comparisons that come to an end -/

/-- A value is inside another one. -/
inductive Inside (v : Dynamic) : Dynamic → Prop
  | here : Inside v v
  | item {x : Dynamic} {items : List Dynamic} (hx : x ∈ items) (h : Inside v x) :
      Inside v (.array items)
  | value {k x : Dynamic} {fields : List (Dynamic × Dynamic)} (hx : (k, x) ∈ fields)
      (h : Inside v x) : Inside v (.map fields)

section
variable {abi : Abi}

/-- The item replaces the first value, or what it removes or replaces is inside of it. -/
def Removes (path : List Dynamic) (a b : Dynamic) (item : ValueDiffItem) : Prop :=
  item = makeUpdateItem path a b ∨ item.path ≠ [] ∧ ∀ v, item.a = some v → Inside v a

/-- What is found at a part of the first value. -/
theorem Removes.part {path : List Dynamic} {e x y a : Dynamic} {item : ValueDiffItem}
    (h : Removes (extendPath path e) x y item) (hin : ∀ v, Inside v x → Inside v a) :
    item.path ≠ [] ∧ ∀ v, item.a = some v → Inside v a := by
  rcases h with rfl | ⟨hpath, hremoved⟩
  · refine ⟨by simp [makeUpdateItem, extendPath], fun v hv => hin v ?_⟩
    cases hv
    exact .here
  · exact ⟨hpath, fun v hv => hin v (hremoved v hv)⟩

theorem removes_insert {path : List Dynamic} {e y a : Dynamic} :
    (makeInsertItem (extendPath path e) y).path ≠ [] ∧
      ∀ v, (makeInsertItem (extendPath path e) y).a = some v → Inside v a :=
  ⟨by simp [makeInsertItem, extendPath], fun v hv => by cases hv⟩

theorem removes_delete {path : List Dynamic} {e x a : Dynamic} (hin : Inside x a) :
    (makeDeleteItem (extendPath path e) x).path ≠ [] ∧
      ∀ v, (makeDeleteItem (extendPath path e) x).a = some v → Inside v a := by
  refine ⟨by simp [makeDeleteItem, extendPath], fun v hv => ?_⟩
  cases hv
  exact hin

theorem removes_insertItems {path items : List Dynamic} {index : ℕ} {a : Dynamic} :
    ∀ item ∈ insertItems path index items,
      item.path ≠ [] ∧ ∀ v, item.a = some v → Inside v a := by
  induction items generalizing index with
  | nil => exact fun item hitem => absurd hitem List.not_mem_nil
  | cons x xs ih => exact List.forall_mem_cons.mpr ⟨removes_insert, ih⟩

theorem removes_deleteItems {path items as : List Dynamic} {index : ℕ}
    (hin : ∀ x ∈ items, x ∈ as) :
    ∀ item ∈ deleteItems path index items,
      item.path ≠ [] ∧ ∀ v, item.a = some v → Inside v (.array as) := by
  induction items generalizing index with
  | nil => exact fun item hitem => absurd hitem List.not_mem_nil
  | cons x xs ih =>
      obtain ⟨hx, hxs⟩ := List.forall_mem_cons.mp hin
      refine List.forall_mem_append.mpr ⟨ih hxs, fun item hitem => ?_⟩
      rw [List.mem_singleton.mp hitem]
      exact removes_delete (.item hx .here)

theorem removes_of_itemDiffs {path as bs cs : List Dynamic} {i : ℕ} {d : ValueDiff}
    (ih : ∀ x ∈ as, ∀ y path d, computeDiffAt abi x path y = .ok d →
      ∀ item ∈ d, Removes path x y item)
    (hin : ∀ x ∈ as, x ∈ cs) (hd : itemDiffs abi as path i bs = .ok d) :
    ∀ item ∈ d, item.path ≠ [] ∧ ∀ v, item.a = some v → Inside v (.array cs) := by
  induction as generalizing bs i d with
  | nil =>
      cases hd
      exact fun item hitem => absurd hitem List.not_mem_nil
  | cons x as iha =>
      cases bs with
      | nil =>
          cases hd
          exact fun item hitem => absurd hitem List.not_mem_nil
      | cons y bs =>
          obtain ⟨ihx, ihas⟩ := List.forall_mem_cons.mp ih
          obtain ⟨hx, hxs⟩ := List.forall_mem_cons.mp hin
          obtain ⟨c, e, hc, he, rfl⟩ := itemDiffs_cons_eq_ok.mp hd
          exact List.forall_mem_append.mpr ⟨fun item hitem =>
            (ihx y _ c hc item hitem).part fun v hv => .item hx hv, iha ihas hxs he⟩

theorem removes_of_fieldDiffs {path : List Dynamic} {as bs cs : List (Dynamic × Dynamic)}
    {d : ValueDiff}
    (ih : ∀ f ∈ as, ∀ y path d, computeDiffAt abi f.2 path y = .ok d →
      ∀ item ∈ d, Removes path f.2 y item)
    (hin : ∀ f ∈ as, f ∈ cs) (hd : fieldDiffs abi as path bs = .ok d) :
    ∀ item ∈ d, item.path ≠ [] ∧ ∀ v, item.a = some v → Inside v (.map cs) := by
  induction as generalizing bs d with
  | nil =>
      simp only [fieldDiffs, Except.ok.injEq] at hd
      subst hd
      intro item hitem
      obtain ⟨g, -, rfl⟩ := List.mem_map.mp hitem
      exact removes_insert
  | cons f as iha =>
      obtain ⟨k, x⟩ := f
      obtain ⟨ihx, ihas⟩ := List.forall_mem_cons.mp ih
      obtain ⟨hx, hxs⟩ := List.forall_mem_cons.mp hin
      simp only [fieldDiffs] at hd
      induction bs generalizing d with
      | nil =>
          obtain ⟨e, he, hd⟩ := Except.bind_eq_ok.mp hd
          cases hd
          exact List.forall_mem_cons.mpr ⟨removes_delete (.value hx .here), iha ihas hxs he⟩
      | cons g bs ihb =>
          obtain ⟨l, y⟩ := g
          rw [walkFields] at hd
          split at hd
          · obtain ⟨c, hc, hd⟩ := Except.bind_eq_ok.mp hd
            obtain ⟨e, he, hd⟩ := Except.bind_eq_ok.mp hd
            cases hd
            exact List.forall_mem_append.mpr ⟨fun item hitem =>
              (ihx y _ c hc item hitem).part fun v hv => .value hx hv, iha ihas hxs he⟩
          · split at hd
            · obtain ⟨e, he, hd⟩ := Except.bind_eq_ok.mp hd
              cases hd
              exact List.forall_mem_cons.mpr ⟨removes_delete (.value hx .here), iha ihas hxs he⟩
            · obtain ⟨e, he, hd⟩ := Except.bind_eq_ok.mp hd
              cases hd
              exact List.forall_mem_cons.mpr ⟨removes_insert, ihb he⟩

/-- What an item of a diff removes or replaces is inside the first value, and only the item that
replaces the whole of it is at the path itself. -/
theorem removes_of_mem {path : List Dynamic} {a b : Dynamic} {d : ValueDiff}
    (hd : computeDiffAt abi a path b = .ok d) : ∀ item ∈ d, Removes path a b item := by
  induction a, b using diff_induction generalizing path d with
  | equal a b heq =>
      rw [computeDiffAt_equal heq, Except.ok.injEq] at hd
      subst hd
      exact fun item hitem => absurd hitem List.not_mem_nil
  | other a b hne hi =>
      rw [computeDiffAt_incomparable hne hi, Except.ok.injEq] at hd
      subst hd
      exact fun item hitem => .inl (List.mem_singleton.mp hitem)
  | map as bs hne ih =>
      rw [computeDiffAt_map hne, computeMapDiff_eq_ok] at hd
      obtain ⟨c, hc, hsmaller⟩ := hd
      obtain ⟨m, n, -, -, rfl⟩ := smallerEncoded_eq_ok.mp hsmaller
      intro item hitem
      split at hitem
      · exact .inr (removes_of_fieldDiffs (fun f hf y _ _ hd => ih f hf y hd) (fun _ hf => hf) hc
          item hitem)
      · exact .inl (List.mem_singleton.mp hitem)
  | array as bs hne ih =>
      rw [computeDiffAt_array hne, computeArrayDiff_eq_ok] at hd
      obtain ⟨c, hc, rfl⟩ := hd
      intro item hitem
      rw [ValueDiff.smallerDeep] at hitem
      split at hitem
      case isFalse => exact .inl (List.mem_singleton.mp hitem)
      case isTrue =>
        refine .inr ?_
        rcases Nat.lt_trichotomy as.length bs.length with hlt | heq | hgt
        · rw [compressedArrayDiff_longer hlt] at hc
          cases hr : detectInsertion as bs with
          | error e =>
              rw [hr] at hc
              cases hc
          | ok r =>
              rw [hr] at hc
              cases hc
              cases r with
              | none => exact absurd hitem List.not_mem_nil
              | some ins => exact removes_insertItems item hitem
        · rw [compressedArrayDiff_same heq] at hc
          exact removes_of_itemDiffs (fun x hx y _ _ hd => ih x hx y hd) (fun _ hx => hx) hc item
            hitem
        · rw [compressedArrayDiff_shorter hgt] at hc
          cases hr : detectInsertion bs as with
          | error e =>
              rw [hr] at hc
              cases hc
          | ok r =>
              rw [hr] at hc
              cases hc
              cases r with
              | none => exact absurd hitem List.not_mem_nil
              | some rem =>
                  exact removes_deleteItems
                    (fun x hx => List.mem_of_mem_drop (List.mem_of_mem_take hx)) item hitem

end

section
variable {reads : TreeReads} {abi : Abi} {contextIdA contextIdB : Bytes}

variable (reads contextIdA) in
/-- The ID of an object is inside another object. -/
def HoldsId (ref objectId : Bytes) : Prop :=
  ∃ object, reads.getIssObject contextIdA objectId = .ok object ∧ isIssId (.string ref) = true ∧
    Inside (.string ref) object

variable (reads abi contextIdA contextIdB) in
/-- Both objects can be got and compared, and they are not themselves IDs. -/
def Comparable (pair : TreePair) : Prop :=
  ∃ a b items, reads.getIssObject contextIdA pair.idInA = .ok a ∧
    reads.getIssObject contextIdB pair.idInB = .ok b ∧ computeValueDiff abi a b = .ok items ∧
      ¬ (isIssId a = true ∧ isIssId b = true)

/-- What becomes of an item of the comparison of two objects. -/
theorem processIssTreeSubdiff_cases {item : ValueDiffItem} (hids : ∀ a b, item.path = [] →
    item.a = some a → item.b = some b → ¬ (isIssId a = true ∧ isIssId b = true)) :
    processIssTreeSubdiff item = .ok none ∨ ∃ a b path, item.a = some (.string a) ∧
      isIssId (.string a) = true ∧
        processIssTreeSubdiff item = .ok (some (⟨.iss, a, b⟩, .ok path)) := by
  rw [processIssTreeSubdiff]
  split
  case h_2 => exact .inl rfl
  case h_1 a b ha hb =>
      split
      case isFalse => exact .inl rfl
      case isTrue h =>
          rw [Bool.and_eq_true] at h
          obtain ⟨idA, rfl⟩ := exists_string_of_isIssId h.1
          obtain ⟨idB, rfl⟩ := exists_string_of_isIssId h.2
          have hpath : item.path.isEmpty = false := by
            rw [List.isEmpty_eq_false_iff]
            exact fun hnil => hids _ _ hnil ha hb h
          refine .inr ⟨idA, idB, item.path.dropLast, ha, h.1, ?_⟩
          rw [pathToParent, if_neg (by simp [hpath])]
          rfl

/-- The items of two comparable objects lead on to objects whose IDs the first one holds. -/
theorem Comparable.exists_items {pair : TreePair} (hiss : pair.service = .iss)
    (h : Comparable reads abi contextIdA contextIdB pair) :
    ∃ items, compareNodes reads abi contextIdA contextIdB pair = .ok items ∧
      ∀ item ∈ items, processTreeSubdiff pair item = .ok none ∨ ∃ a b path,
        HoldsId reads contextIdA a pair.idInA ∧
          processTreeSubdiff pair item = .ok (some (⟨.iss, a, b⟩, .ok path)) := by
  obtain ⟨a, b, items, ha, hb, hdiff, hids⟩ := h
  refine ⟨items, compareNodes_eq_ok.mpr ⟨a, b, by rw [hiss]; exact ha, by rw [hiss]; exact hb,
    hdiff⟩, fun item hitem => ?_⟩
  have hremoves := removes_of_mem hdiff item hitem
  have hprocess : processTreeSubdiff pair item = processIssTreeSubdiff item := by
    rw [processTreeSubdiff, hiss]
  rw [hprocess]
  have hroot (u v : Dynamic) (hnil : item.path = []) (hu : item.a = some u)
      (hv : item.b = some v) : ¬ (isIssId u = true ∧ isIssId v = true) := by
    rcases hremoves with rfl | ⟨hpath, -⟩
    · cases hu
      cases hv
      exact hids
    · exact absurd hnil hpath
  rcases processIssTreeSubdiff_cases hroot with hnone | ⟨idA, idB, path, hidA, hid, hsome⟩
  · exact .inl hnone
  · refine .inr ⟨idA, idB, path, ⟨a, ha, hid, ?_⟩, hsome⟩
    rcases hremoves with rfl | ⟨-, hinside⟩
    · cases hidA
      exact .here
    · exact hinside _ hidA

/-- ISS objects only lead on to ISS objects. -/
theorem service_of_leads {pair pair' : TreePair} {path : List Dynamic}
    (h : Leads (compareNodes reads abi contextIdA contextIdB) processTreeSubdiff pair path pair')
    (hiss : pair.service = .iss) : pair'.service = .iss := by
  induction h with
  | refl => exact hiss
  | link _ _ hlink _ ih =>
      obtain ⟨u, v, -, -, hto⟩ := linksTo_of_processTreeSubdiff hlink
      rw [hiss] at hto
      cases hto
      exact ih rfl

/-- A comparison of two objects comes to an end where the IDs in the objects of the first context
do not lead on for ever, even if those of the second context do. -/
theorem exists_computeIssTreeDiff {objectIdA objectIdB : Bytes}
    (hacc : Acc (HoldsId reads contextIdA) objectIdA)
    (hcomparable : ∀ path pair, Leads (compareNodes reads abi contextIdA contextIdB)
      processTreeSubdiff ⟨.iss, objectIdA, objectIdB⟩ path pair →
        Comparable reads abi contextIdA contextIdB pair) :
    ∃ fuel nodes,
      (computeIssTreeDiff reads abi contextIdA contextIdB fuel objectIdA objectIdB).Returns
        nodes := by
  refine exists_treeDiff ?_ fun path pair hleads => ?_
  · induction hacc generalizing objectIdB with
    | intro idA _ ih =>
        refine ⟨_, fun child hlinks => ?_⟩
        obtain ⟨items, item, path, hitems, hitem, hlink⟩ := hlinks
        obtain ⟨items', hitems', hfollow⟩ := (hcomparable [] _ .refl).exists_items rfl
        rw [hitems] at hitems'
        cases hitems'
        rcases hfollow item hitem with hnone | ⟨a, b, path', hholds, hsome⟩
        · rw [hlink] at hnone
          cases hnone
        · rw [hlink] at hsome
          cases hsome
          exact ih a hholds fun rest pair hrest =>
            hcomparable _ pair (.link hitems hitem hlink hrest)
  · obtain ⟨items, hitems, hfollow⟩ :=
      (hcomparable path pair hleads).exists_items (service_of_leads hleads rfl)
    refine ⟨items, hitems, fun item hitem => ?_⟩
    rcases hfollow item hitem with hnone | ⟨a, b, path', -, hsome⟩
    · exact .inl hnone
    · exact .inr ⟨_, path', hsome⟩

end

/-! ## An object that holds the ID of another -/

/-- An ISS ID. -/
def linkedId (n : UInt8) : Bytes := List.replicate 9 0x30 ++ [0x30, 0x63] ++ List.replicate 21 n

/-- The object 1 holds the ID of another one, which says how long the context's ID is. -/
def linkedReads : TreeReads where
  getIssObject := fun contextId id =>
    if id = linkedId 1 then .ok (.map [(.string [107], .string (linkedId (contextId.headD 0))),
      (.string [108], .integer 7)])
    else if id = linkedId 2 ∨ id = linkedId 3 then .ok (.integer contextId.length)
    else .error (.request [])
  retrieveCalculationRequest := fun _ _ => .error (.request [])
  toDynamic := fun _ => .nil

def linkedPair : TreePair := ⟨.iss, linkedId 1, linkedId 1⟩

def linkedPair' : TreePair := ⟨.iss, linkedId 2, linkedId 3⟩

/-- The trees differ in an ID only. -/
theorem sameTree_linked :
    (computeTreeDiff linkedReads abi64 [2] [3] 2 linkedPair).Returns [] ∧
      SameTree linkedReads [2] [3] linkedPair := by
  have h : (computeTreeDiff linkedReads abi64 [2] [3] 2 linkedPair).Returns [] := by
    rw [Bounded.Returns]
    rfl
  exact ⟨h, sameTree_of_computeTreeDiff h⟩

/-- The trees differ in the objects that have different IDs. -/
theorem mem_computeTreeDiff_linked :
    Leads (compareNodes linkedReads abi64 [2] [3, 3]) processTreeSubdiff linkedPair []
      linkedPair' := by
  have h : (computeTreeDiff linkedReads abi64 [2] [3, 3] 2 linkedPair).Returns
      [⟨linkedPair', [], [makeUpdateItem [] (.integer 1) (.integer 2)]⟩] := by
    rw [Bounded.Returns]
    rfl
  exact ((mem_computeTreeDiff_iff h _).mp List.mem_cons_self).1

theorem compareNodes_linked : compareNodes linkedReads abi64 [2] [3, 3] linkedPair =
    .ok [makeUpdateItem [.string [107]] (.string (linkedId 2)) (.string (linkedId 3))] := by
  rw [compareNodes]
  rfl

theorem compareNodes_linked' : compareNodes linkedReads abi64 [2] [3, 3] linkedPair' =
    .ok [makeUpdateItem [] (.integer 1) (.integer 2)] := by
  rw [compareNodes]
  rfl

theorem leads_linked {pair pair' : TreePair} {path : List Dynamic}
    (h : Leads (compareNodes linkedReads abi64 [2] [3, 3]) processTreeSubdiff pair path pair')
    (hpair : pair = linkedPair ∨ pair = linkedPair') :
    pair' = linkedPair ∨ pair' = linkedPair' := by
  induction h with
  | refl => exact hpair
  | link hitems hitem hlink _ ih =>
      refine ih ?_
      rcases hpair with rfl | rfl
      · rw [compareNodes_linked] at hitems
        cases hitems
        rw [List.mem_singleton.mp hitem] at hlink
        cases hlink
        exact .inr rfl
      · rw [compareNodes_linked'] at hitems
        cases hitems
        rw [List.mem_singleton.mp hitem] at hlink
        cases hlink

theorem not_holdsId_linked (ref : Bytes) : ¬ HoldsId linkedReads [2] ref (linkedId 2) := by
  rintro ⟨object, hobject, -, hinside⟩
  cases hobject
  cases hinside

theorem eq_of_holdsId_linked {ref : Bytes} (h : HoldsId linkedReads [2] ref (linkedId 1)) :
    ref = linkedId 2 := by
  obtain ⟨object, hobject, -, hinside⟩ := h
  cases hobject
  cases hinside with
  | value hx hinside =>
      simp only [List.mem_cons, List.not_mem_nil, or_false, Prod.mk.injEq] at hx
      rcases hx with ⟨rfl, rfl⟩ | ⟨rfl, rfl⟩
      · cases hinside
        rfl
      · cases hinside

theorem exists_computeIssTreeDiff_linked : ∃ fuel nodes,
    (computeIssTreeDiff linkedReads abi64 [2] [3, 3] fuel (linkedId 1) (linkedId 1)).Returns
      nodes := by
  refine exists_computeIssTreeDiff (.intro _ fun ref href => ?_) fun path pair hleads => ?_
  · rw [eq_of_holdsId_linked href]
    exact .intro _ fun ref' href' => absurd href' (not_holdsId_linked ref')
  · rcases leads_linked hleads (.inl rfl) with rfl | rfl
    · exact ⟨_, _, _, rfl, rfl, rfl, by simp [isIssId]⟩
    · exact ⟨_, _, _, rfl, rfl, rfl, by simp [isIssId]⟩

end Cradle
