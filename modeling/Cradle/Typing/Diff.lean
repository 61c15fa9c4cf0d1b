import Cradle.Typing.Dynamic
import Mathlib.Algebra.GroupWithZero.Nat
import Mathlib.Control.Basic

/-!
# Diffs of dynamic values

`compute_value_diff` describes how to get from one value to another by a list of
insertions, updates and deletions at paths.  Maps are compared field by field and arrays
of one size item by item; arrays of different sizes are searched for one insertion or
removal of consecutive items.  The result is used if it is smaller than replacing the
whole value.  `apply_value_diff` replays such a list.

A vector is accessed without bounds checks: an access beyond its end is the fault
`outOfBounds` here.
-/

namespace Cradle

/-- `value_diff_op`. -/
inductive ValueDiffOp
  | insert | update | delete
  deriving DecidableEq, Repr

/-- `value_diff_item`. -/
structure ValueDiffItem where
  path : List Dynamic
  op : ValueDiffOp
  a : Option Dynamic
  b : Option Dynamic

abbrev ValueDiff := List ValueDiffItem

/-- What can go wrong: the two exceptions, and an access out of bounds. -/
inductive DiffFault
  | badNumericCast
  | invalidDiffPath
  | outOfBounds
  deriving DecidableEq, Repr

def makeInsertItem (path : List Dynamic) (newValue : Dynamic) : ValueDiffItem :=
  { path, op := .insert, a := none, b := some newValue }

def makeUpdateItem (path : List Dynamic) (oldValue newValue : Dynamic) : ValueDiffItem :=
  { path, op := .update, a := some oldValue, b := some newValue }

def makeDeleteItem (path : List Dynamic) (oldValue : Dynamic) : ValueDiffItem :=
  { path, op := .delete, a := some oldValue, b := none }

/-- `extend_path`. -/
def extendPath (path : List Dynamic) (addition : Dynamic) : List Dynamic := path ++ [addition]

/-! ## The sizes of diffs -/

def ascii (cs : List Char) : Bytes := cs.map fun c => UInt8.ofNat c.toNat

/-- `get_value_id`. -/
def ValueDiffOp.valueId : ValueDiffOp → Bytes
  | insert => ascii ['i', 'n', 's', 'e', 'r', 't']
  | update => ascii ['u', 'p', 'd', 'a', 't', 'e']
  | delete => ascii ['d', 'e', 'l', 'e', 't', 'e']

/-- `to_dynamic` of an `optional<dynamic>`. -/
def optionalToDynamic : Option Dynamic → Dynamic
  | some v => .map [(.string (ascii ['s', 'o', 'm', 'e']), v)]
  | none => .map [(.string (ascii ['n', 'o', 'n', 'e']), .nil)]

namespace ValueDiffItem

def toDynamic (item : ValueDiffItem) : Dynamic :=
  .map [
    (.string (ascii ['a']), optionalToDynamic item.a),
    (.string (ascii ['b']), optionalToDynamic item.b),
    (.string (ascii ['o', 'p']), .string item.op.valueId),
    (.string (ascii ['p', 'a', 't', 'h']), .array item.path)]

def deepSizeof (abi : Abi) (item : ValueDiffItem) : ℕ :=
  let optional (v : Option Dynamic) : ℕ :=
    abi.optionalDynamic + (v.map (Dynamic.deepSizeof abi)).getD 0
  (abi.vector + Dynamic.itemsDeepSizeof abi item.path) + abi.enum
    + optional item.a + optional item.b

end ValueDiffItem

namespace ValueDiff

def toDynamic (diff : ValueDiff) : Dynamic := .array (diff.map ValueDiffItem.toDynamic)

def deepSizeof (abi : Abi) (diff : ValueDiff) : ℕ :=
  abi.vector + (diff.map (ValueDiffItem.deepSizeof abi)).sum

/-- The choice between the two diffs of a map, by encoded size. -/
def smallerEncoded (compressed simple : ValueDiff) : Except DiffFault ValueDiff :=
  match compressed.toDynamic.nativelyEncodedSizeof, simple.toDynamic.nativelyEncodedSizeof with
  | some m, some n => .ok (if m < n then compressed else simple)
  | _, _ => .error .badNumericCast

/-- The choice between the two diffs of an array, by size in memory. -/
def smallerDeep (abi : Abi) (compressed simple : ValueDiff) : ValueDiff :=
  if !compressed.isEmpty && compressed.deepSizeof abi < simple.deepSizeof abi then compressed
  else simple

end ValueDiff

/-! ## Insertions into arrays -/

/-- `insertion_description`. -/
structure InsertionDescription where
  index : ℕ
  count : ℕ
  deriving DecidableEq, Repr

/-- Whether the items of `a` are those that `b` starts with. -/
def matchRest : List Dynamic → List Dynamic → Except DiffFault Bool
  | [], _ => .ok true
  | _ :: _, [] => .error .outOfBounds
  | x :: a, y :: b => if x.equals y then matchRest a b else .ok false

/-- The loop of `detect_insertion` from index `i` on; `a` and `b` are what is left of the
arrays. -/
def detectFrom (i : ℕ) :
    List Dynamic → List Dynamic → Except DiffFault (Option InsertionDescription)
  | [], b => .ok (some ⟨i, b.length⟩)
  | _ :: _, [] => .error .outOfBounds
  | x :: a, y :: b =>
      if x.equals y then detectFrom (i + 1) a b
      else
        -- the first later item of `b` that matches gives the offset
        match b.findIdx? (x.equals ·) with
        | none => .ok none
        | some j => do
            if ← matchRest (x :: a) (b.drop j) then return some ⟨i, j + 1⟩
            else return none

/-- `detect_insertion`. -/
def detectInsertion (a b : List Dynamic) : Except DiffFault (Option InsertionDescription) :=
  detectFrom 0 a b

/-- Insertions of consecutive items, in their order. -/
def insertItems (path : List Dynamic) (index : ℕ) : List Dynamic → ValueDiff
  | [] => []
  | x :: xs =>
      makeInsertItem (extendPath path (.integer index)) x :: insertItems path (index + 1) xs

/-- Deletions of consecutive items, the last one first. -/
def deleteItems (path : List Dynamic) (index : ℕ) : List Dynamic → ValueDiff
  | [] => []
  | x :: xs =>
      deleteItems path (index + 1) xs ++ [makeDeleteItem (extendPath path (.integer index)) x]

/-! ## Computing a diff -/

/-- One round of the loop of `compute_map_diff`, for a field of `a` at which the iterator
stands: fields of `b` with smaller keys are new.  `child` compares the values of the field,
`rest` continues with the next field of `a`. -/
def walkFields (path : List Dynamic) (k x : Dynamic)
    (child : Dynamic → Except DiffFault ValueDiff)
    (rest : List (Dynamic × Dynamic) → Except DiffFault ValueDiff) :
    List (Dynamic × Dynamic) → Except DiffFault ValueDiff
  | [] => do return makeDeleteItem (extendPath path k) x :: (← rest [])
  | (l, y) :: bs =>
      if k.equals l then do return (← child y) ++ (← rest bs)
      else if k.lt l then do return makeDeleteItem (extendPath path k) x :: (← rest ((l, y) :: bs))
      else do return makeInsertItem (extendPath path l) y :: (← walkFields path k x child rest bs)

/-- `compute_map_diff`, on the diffs of the fields. -/
def computeMapDiff (path : List Dynamic) (a b : List (Dynamic × Dynamic))
    (fields : Except DiffFault ValueDiff) : Except DiffFault ValueDiff := do
  ValueDiff.smallerEncoded (← fields) [makeUpdateItem path (.map a) (.map b)]

/-- The compressed diff of two arrays, on the diffs of the items. -/
def compressedArrayDiff (path : List Dynamic) (a b : List Dynamic)
    (items : Except DiffFault ValueDiff) : Except DiffFault ValueDiff :=
  if a.length < b.length then do
    match ← detectInsertion a b with
    | some ins => return insertItems path ins.index ((b.drop ins.index).take ins.count)
    | none => return []
  else if b.length < a.length then do
    match ← detectInsertion b a with
    | some rem => return deleteItems path rem.index ((a.drop rem.index).take rem.count)
    | none => return []
  else items

/-- `compute_array_diff`, on the diffs of the items. -/
def computeArrayDiff (abi : Abi) (path : List Dynamic) (a b : List Dynamic)
    (items : Except DiffFault ValueDiff) : Except DiffFault ValueDiff := do
  return ValueDiff.smallerDeep abi (← compressedArrayDiff path a b items)
    [makeUpdateItem path (.array a) (.array b)]

mutual
/-- The static `compute_value_diff`, with a path. -/
def computeDiffAt (abi : Abi) : Dynamic → List Dynamic → Dynamic → Except DiffFault ValueDiff
  | .map as, path, b =>
      if (Dynamic.map as).equals b then .ok []
      else match b with
        | .map bs => computeMapDiff path as bs (fieldDiffs abi as path bs)
        | b => .ok [makeUpdateItem path (.map as) b]
  | .array as, path, b =>
      if (Dynamic.array as).equals b then .ok []
      else match b with
        | .array bs => computeArrayDiff abi path as bs (itemDiffs abi as path 0 bs)
        | b => .ok [makeUpdateItem path (.array as) b]
  | a, path, b => if a.equals b then .ok [] else .ok [makeUpdateItem path a b]
termination_by structural a => a
/-- The loop of `compute_map_diff`. -/
def fieldDiffs (abi : Abi) : List (Dynamic × Dynamic) → List Dynamic → List (Dynamic × Dynamic) →
    Except DiffFault ValueDiff
  | [], path, bs => .ok (bs.map fun f => makeInsertItem (extendPath path f.1) f.2)
  | (k, x) :: as, path, bs =>
      walkFields path k x (computeDiffAt abi x (extendPath path k)) (fieldDiffs abi as path) bs
termination_by structural as => as
/-- The loop of `compute_array_diff` for arrays of one size. -/
def itemDiffs (abi : Abi) : List Dynamic → List Dynamic → ℕ → List Dynamic →
    Except DiffFault ValueDiff
  | x :: as, path, i, y :: bs => do
      return (← computeDiffAt abi x (extendPath path (.integer i)) y)
        ++ (← itemDiffs abi as path (i + 1) bs)
  | _, _, _, _ => .ok []
termination_by structural as => as
end

/-- `compute_value_diff`. -/
def computeValueDiff (abi : Abi) (a b : Dynamic) : Except DiffFault ValueDiff :=
  computeDiffAt abi a [] b

/-! ## Applying a diff -/

/-- `apply_value_diff_item`, on the part of the path from `path_index` on. -/
def applyValueDiffItem (op : ValueDiffOp) (newValue : Dynamic) :
    List Dynamic → Dynamic → Except DiffFault Dynamic
  | [], _ => .ok newValue
  | .string s :: path, .map fields =>
      if path.isEmpty then
        match op with
        | .insert | .update => .ok (.map (Dynamic.setField (.string s) newValue fields))
        | .delete => .ok (.map (Dynamic.eraseField fields (.string s)))
      else
        match Dynamic.findField fields (.string s) with
        | none => .error .invalidDiffPath
        | some x => do
            return .map
              (Dynamic.setField (.string s) (← applyValueDiffItem op newValue path x) fields)
  | .integer i :: path, .array items =>
      if i < 0 then .error .badNumericCast
      else if path.isEmpty then
        match op with
        | .insert =>
            if items.length < i.toNat then .error .invalidDiffPath
            else .ok (.array (items.insertIdx i.toNat newValue))
        | .update =>
            if items.length ≤ i.toNat then .error .invalidDiffPath
            else .ok (.array (items.set i.toNat newValue))
        | .delete =>
            if items.length ≤ i.toNat then .error .outOfBounds
            else .ok (.array (items.eraseIdx i.toNat))
      else
        match items[i.toNat]? with
        | none => .error .invalidDiffPath
        | some x => do
            return .array (items.set i.toNat (← applyValueDiffItem op newValue path x))
  | _, _ => .error .invalidDiffPath

/-- `apply_value_diff`. -/
def applyValueDiff (v : Dynamic) (diff : ValueDiff) : Except DiffFault Dynamic :=
  diff.foldlM (fun patched item =>
    applyValueDiffItem item.op (item.b.getD .nil) item.path patched) v

end Cradle
