import Mathlib.Data.Finset.Card
import Mathlib.Data.Finset.Filter
import Mathlib.Logic.Relation

/-!
# Depth-first traversal

The order in which a depth-first traversal of a graph meets the nodes: of what there is to do
it takes the first node, and unless that has been seen, goes on with its successors before the
others.
-/

namespace DepthFirst

variable {ν : Type*}

/-- From `todo`, with `seen` seen before, the nodes `new` are met in this order. -/
inductive Visits (succ : ν → List ν) : List ν → Set ν → List ν → Prop
  | nil {seen} : Visits succ [] seen []
  | skip {x todo seen new} : x ∈ seen → Visits succ todo seen new → Visits succ (x :: todo) seen new
  | visit {x todo seen new} : x ∉ seen → Visits succ (succ x ++ todo) (insert x seen) new →
      Visits succ (x :: todo) seen (x :: new)

variable {succ : ν → List ν} {todo todo' new new' : List ν} {seen : Set ν} {x y : ν}

namespace Visits

theorem unique (h : Visits succ todo seen new) (h' : Visits succ todo seen new') : new = new' := by
  induction h generalizing new' with
  | nil => cases h'; rfl
  | skip hx _ ih =>
      cases h' with
      | skip _ h' => exact ih h'
      | visit hx' _ => exact absurd hx hx'
  | visit hx _ ih =>
      cases h' with
      | skip hx' _ => exact absurd hx' hx
      | visit _ h' => rw [ih h']

/-- What is done first has been seen by what is done afterwards. -/
theorem append (h : Visits succ todo seen new)
    (h' : Visits succ todo' (seen ∪ {x | x ∈ new}) new') :
    Visits succ (todo ++ todo') seen (new ++ new') := by
  induction h with
  | nil => simpa using h'
  | skip hx _ ih => exact .skip hx (ih h')
  | @visit x todo seen new hx _ ih =>
      refine .visit hx ?_
      change Visits succ (succ x ++ (todo ++ todo')) _ (new ++ new')
      rw [← List.append_assoc]
      refine ih ?_
      have hseen : insert x seen ∪ {y | y ∈ new} = seen ∪ {y | y ∈ x :: new} := by
        ext y
        simp only [Set.mem_union, Set.mem_insert_iff, Set.mem_ofPred_eq, List.mem_cons]
        tauto
      rwa [hseen]

/-- A node, its successors, and then the others. -/
theorem cons (hx : x ∉ seen) (h : Visits succ (succ x) (insert x seen) new)
    (h' : Visits succ todo (insert x seen ∪ {y | y ∈ new}) new') :
    Visits succ (x :: todo) seen (x :: (new ++ new')) := .visit hx (h.append h')

/-! ## The nodes that are met -/

/-- `y` is a successor of `x`. -/
def Edge (succ : ν → List ν) (x y : ν) : Prop := y ∈ succ x

theorem reachable (h : Visits succ todo seen new) (hx : x ∈ new) :
    ∃ y ∈ todo, Relation.ReflTransGen (Edge succ) y x := by
  induction h with
  | nil => cases hx
  | skip _ _ ih =>
      obtain ⟨y, hy, hreach⟩ := ih hx
      exact ⟨y, List.mem_cons_of_mem _ hy, hreach⟩
  | @visit z _ _ _ _ _ ih =>
      rcases List.mem_cons.mp hx with rfl | hx
      · exact ⟨x, List.mem_cons_self, .refl⟩
      · obtain ⟨y, hy, hreach⟩ := ih hx
        rcases List.mem_append.mp hy with hy | hy
        · exact ⟨z, List.mem_cons_self, .head hy hreach⟩
        · exact ⟨y, List.mem_cons_of_mem _ hy, hreach⟩

/-- A traversal of finitely many nodes ends. -/
theorem exists_of_finite [DecidableEq ν] {nodes : Finset ν}
    (hclosed : ∀ x ∈ nodes, ∀ y ∈ succ x, y ∈ nodes) (todo : List ν) (seen : Set ν)
    (htodo : ∀ x ∈ todo, x ∈ nodes) : ∃ new, Visits succ todo seen new := by
  classical
  induction hn : (nodes.filter (· ∉ seen)).card using Nat.strong_induction_on
    generalizing todo seen with
  | h n ih =>
      induction todo with
      | nil => exact ⟨[], .nil⟩
      | cons x todo ihtodo =>
          obtain ⟨hx, htodo⟩ := List.forall_mem_cons.mp htodo
          by_cases hseen : x ∈ seen
          · obtain ⟨new, hnew⟩ := ihtodo htodo
            exact ⟨new, .skip hseen hnew⟩
          · have hless (s : Set ν) (hs : insert x seen ⊆ s) :
                (nodes.filter (· ∉ s)).card < n := by
              rw [← hn]
              refine Finset.card_lt_card ⟨fun y hy => ?_, fun h => ?_⟩
              · rw [Finset.mem_filter] at hy ⊢
                exact ⟨hy.1, fun h => hy.2 (hs (Set.mem_insert_of_mem x h))⟩
              · have hmem := h (Finset.mem_filter.mpr ⟨hx, hseen⟩)
                exact (Finset.mem_filter.mp hmem).2 (hs (Set.mem_insert x seen))
            obtain ⟨first, hfirst⟩ :=
              ih _ (hless _ Set.Subset.rfl) (succ x) _ (hclosed x hx) rfl
            obtain ⟨rest, hrest⟩ :=
              ih _ (hless _ Set.subset_union_left) todo (insert x seen ∪ {y | y ∈ first}) htodo rfl
            exact ⟨x :: (first ++ rest), .cons hseen hfirst hrest⟩

end Visits

end DepthFirst
