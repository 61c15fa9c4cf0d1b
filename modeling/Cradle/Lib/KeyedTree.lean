import Cradle.Lib.Assoc

/-!
# Trees of tables

A table has fields, and what is in a field is a leaf or again a table.  A reader of such a tree
comes to its leaves one after the other.  In which order it does depends on the order of the
fields; where no table has a key twice, which leaves it comes to does not.
-/

/-- A leaf, or a table of trees by their keys. -/
inductive KeyedTree (κ α : Type*)
  | leaf (a : α)
  | table (fields : List (κ × KeyedTree κ α))

namespace KeyedTree

variable {κ α β : Type*}

/-- Induction over the fields of the tables. -/
@[elab_as_elim, induction_eliminator]
theorem induction {P : KeyedTree κ α → Prop} (leaf : ∀ a, P (.leaf a))
    (table : ∀ fields, (∀ f ∈ fields, P f.2) → P (.table fields)) (t : KeyedTree κ α) : P t :=
  match t with
  | .leaf a => leaf a
  | .table fields => table fields fun f hf =>
      have : sizeOf f < sizeOf fields := List.sizeOf_lt_of_mem hf
      have : sizeOf f = 1 + sizeOf f.1 + sizeOf f.2 := by cases f; rfl
      induction leaf table f.2
termination_by sizeOf t
decreasing_by simp_wf; omega

mutual
/-- The leaves with the keys that lead to them, in the order of the tables. -/
def leaves : KeyedTree κ α → List (List κ × α)
  | leaf a => [([], a)]
  | table fields => fieldsLeaves fields
def fieldsLeaves : List (κ × KeyedTree κ α) → List (List κ × α)
  | [] => []
  | (k, t) :: fields => t.leaves.map (fun x => (k :: x.1, x.2)) ++ fieldsLeaves fields
end

@[simp] theorem leaves_leaf (a : α) : (leaf a : KeyedTree κ α).leaves = [([], a)] := rfl

theorem leaves_table (fields : List (κ × KeyedTree κ α)) :
    (table fields).leaves =
      fields.flatMap fun f => f.2.leaves.map fun x => (f.1 :: x.1, x.2) := by
  induction fields with
  | nil => rfl
  | cons f fields ih =>
      obtain ⟨k, t⟩ := f
      rw [List.flatMap_cons, ← ih]
      rfl

mutual
/-- The same tree with other leaves. -/
def map (f : α → β) : KeyedTree κ α → KeyedTree κ β
  | leaf a => leaf (f a)
  | table fields => table (mapFields f fields)
def mapFields (f : α → β) : List (κ × KeyedTree κ α) → List (κ × KeyedTree κ β)
  | [] => []
  | (k, t) :: fields => (k, t.map f) :: mapFields f fields
end

theorem leaves_map (f : α → β) (t : KeyedTree κ α) :
    (t.map f).leaves = t.leaves.map fun x => (x.1, f x.2) := by
  induction t with
  | leaf a => rfl
  | table fields ih =>
      induction fields with
      | nil => rfl
      | cons g fields ihfields =>
          obtain ⟨k, t⟩ := g
          obtain ⟨ht, hfields⟩ := List.forall_mem_cons.mp ih
          have hrest := ihfields hfields
          simp only [map, leaves] at hrest ht
          simp only [map, mapFields, leaves, fieldsLeaves, ht, hrest, List.map_append, List.map_map]
          rfl

/-! ## Tables in the order of their keys -/

/-- No table has a key twice. -/
inductive DistinctKeys : KeyedTree κ α → Prop
  | leaf (a : α) : DistinctKeys (leaf a)
  | table {fields : List (κ × KeyedTree κ α)} (keys : (fields.map Prod.fst).Nodup)
      (fields_distinct : ∀ f ∈ fields, DistinctKeys f.2) : DistinctKeys (table fields)

section
variable [LT κ] [DecidableLT κ]

mutual
/-- The tree with every table in the order of its keys. -/
def inOrder : KeyedTree κ α → KeyedTree κ α
  | leaf a => leaf a
  | table fields => table (Assoc.ofEntries (fieldsInOrder fields))
def fieldsInOrder : List (κ × KeyedTree κ α) → List (κ × KeyedTree κ α)
  | [] => []
  | (k, t) :: fields => (k, t.inOrder) :: fieldsInOrder fields
end

theorem fieldsInOrder_eq (fields : List (κ × KeyedTree κ α)) :
    fieldsInOrder fields = fields.map fun f => (f.1, f.2.inOrder) := by
  induction fields with
  | nil => rfl
  | cons f fields ih => rw [fieldsInOrder, ih, List.map_cons]

/-- The same leaves, in another order. -/
theorem DistinctKeys.leaves_inOrder_perm [IsTrans κ (· < ·)]
    [Std.Trichotomous fun a b : κ => a < b] [Std.Irrefl fun a b : κ => a < b]
    {t : KeyedTree κ α} (h : t.DistinctKeys) : t.inOrder.leaves.Perm t.leaves := by
  induction t with
  | leaf a => exact List.Perm.refl _
  | table fields ih =>
      cases h with
      | table keys hfields =>
          have hkeys : ((fieldsInOrder fields).map Prod.fst).Nodup := by
            rw [fieldsInOrder_eq, List.map_map]
            exact keys
          rw [inOrder, leaves_table, leaves_table]
          refine ((Assoc.ofEntries_perm_iff.mpr hkeys).flatMap_right _).trans ?_
          rw [fieldsInOrder_eq, List.flatMap_map]
          exact List.Perm.flatMap_left _ fun f hf => (ih f hf (hfields f hf)).map _

end

end KeyedTree
