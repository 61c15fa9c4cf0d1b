import Cradle.Lib.Bounded
import Mathlib.Logic.Relation

/-!
# Differences of linked documents

Two documents are compared, and the result is a list of items.  An item may be about links that
the documents have at the same place: then it is replaced by the differences of the documents that
these links lead to, at a path that says how they were reached.  What is left at each pair of
documents is reported for that pair.
-/

namespace LinkedDiff

/-- The differences of one pair of documents, with the path from the first pair. -/
structure NodeDiff (κ δ π : Type) where
  pair : κ
  path : List π
  items : List δ

/-- The path of a difference that was found behind a link. -/
def NodeDiff.behind {κ δ π : Type} (n : NodeDiff κ δ π) (path : List π) : NodeDiff κ δ π :=
  { n with path := path ++ n.path }

/-- Where a link leads to, and the path to it. -/
abbrev Link (ε κ π : Type) := κ × Except ε (List π)

section
variable {ε κ δ π : Type}

/-- What an item contributes: it stays, or it is replaced by what is behind its links.  The path
to a link is only asked for when there is a difference behind it. -/
def contribution (follow : κ → δ → Except ε (Option (Link ε κ π)))
    (recurse : κ → Bounded ε (List (NodeDiff κ δ π))) (k : κ) (item : δ) :
    Bounded ε (Option δ × List (NodeDiff κ δ π)) := do
  match ← Bounded.ofExcept (follow k item) with
  | some (child, path) => do
      let nodes ← recurse child
      let moved ← nodes.mapM fun n => Bounded.ofExcept (path.map n.behind)
      return (none, moved)
  | none => return (some item, [])

/-- The differences of a pair of documents and of those that it leads to. -/
def treeDiff (compare : κ → Except ε (List δ)) (follow : κ → δ → Except ε (Option (Link ε κ π))) :
    ℕ → κ → Bounded ε (List (NodeDiff κ δ π))
  | 0, _ => Bounded.exhausted
  | fuel + 1, k => do
    let items ← Bounded.ofExcept (compare k)
    let parts ← items.mapM (contribution follow (treeDiff compare follow fuel) k)
    let nodes := (parts.map (·.2)).flatten
    let relevant := parts.filterMap (·.1)
    return if relevant.isEmpty then nodes else nodes ++ [⟨k, [], relevant⟩]

/-- Links that are followed lead from one pair to another along a path. -/
inductive Leads (compare : κ → Except ε (List δ))
    (follow : κ → δ → Except ε (Option (Link ε κ π))) : κ → List π → κ → Prop
  | refl {k} : Leads compare follow k [] k
  | link {k items item child path rest k'} : compare k = .ok items → item ∈ items →
      follow k item = .ok (some (child, .ok path)) → Leads compare follow child rest k' →
      Leads compare follow k (path ++ rest) k'

/-- One pair has links to another. -/
def Links (compare : κ → Except ε (List δ)) (follow : κ → δ → Except ε (Option (Link ε κ π)))
    (k child : κ) : Prop :=
  ∃ items item path, compare k = .ok items ∧ item ∈ items ∧
    follow k item = .ok (some (child, path))

/-- The items that are reported for a pair. -/
def remaining (follow : κ → δ → Except ε (Option (Link ε κ π))) (k : κ) (items : List δ) : List δ :=
  items.filter fun item =>
    match follow k item with
    | .ok none => true
    | _ => false

variable {compare : κ → Except ε (List δ)} {follow : κ → δ → Except ε (Option (Link ε κ π))}
  {recurse recurse' : κ → Bounded ε (List (NodeDiff κ δ π))} {fuel : ℕ} {k k' child : κ}
  {item : δ} {items : List δ} {nodes : List (NodeDiff κ δ π)} {n : NodeDiff κ δ π}
  {path : List π}

/-- The differences behind a link with their paths. -/
def Moved (path : Except ε (List π)) (nodes moved : List (NodeDiff κ δ π)) : Prop :=
  List.Forall₂ (fun n m => ∃ p, path = .ok p ∧ m = n.behind p) nodes moved

theorem Moved.mem_iff {path : Except ε (List π)} {moved : List (NodeDiff κ δ π)}
    (h : Moved path nodes moved) : n ∈ moved ↔ ∃ p, path = .ok p ∧ ∃ m ∈ nodes, n = m.behind p := by
  induction h with
  | nil => simp
  | cons hm _ ih =>
      obtain ⟨p, hp, rfl⟩ := hm
      rw [List.mem_cons, ih]
      constructor
      · rintro (rfl | ⟨p', hp', m, hm, rfl⟩)
        · exact ⟨p, hp, _, List.mem_cons_self, rfl⟩
        · exact ⟨p', hp', m, List.mem_cons_of_mem _ hm, rfl⟩
      · rintro ⟨p', hp', m, hm, rfl⟩
        rcases List.mem_cons.mp hm with rfl | hm
        · rw [hp] at hp'
          cases hp'
          exact .inl rfl
        · exact .inr ⟨p', hp', m, hm, rfl⟩

theorem mapM_behind_returns {path : Except ε (List π)} {moved : List (NodeDiff κ δ π)} :
    (nodes.mapM fun n => Bounded.ofExcept (path.map n.behind)).Returns moved ↔
      Moved path nodes moved := by
  rw [Bounded.mapM_returns, Moved]
  simp only [Bounded.returns_ofExcept]
  have hiff (n m : NodeDiff κ δ π) :
      path.map n.behind = .ok m ↔ ∃ p, path = .ok p ∧ m = n.behind p := by
    cases path with
    | error e => simp [Except.map]
    | ok p => simp [Except.map, eq_comm]
  simp only [hiff]

theorem contribution_returns {part : Option δ × List (NodeDiff κ δ π)} :
    (contribution follow recurse k item).Returns part ↔
      (follow k item = .ok none ∧ part = (some item, [])) ∨
        ∃ child path nodes moved, follow k item = .ok (some (child, path)) ∧
          (recurse child).Returns nodes ∧ Moved path nodes moved ∧ part = (none, moved) := by
  simp only [contribution, Bounded.returns_bind, Bounded.returns_ofExcept]
  constructor
  · rintro ⟨link, hlink, h⟩
    cases link with
    | none =>
        rw [Bounded.returns_pure] at h
        exact .inl ⟨hlink, h.symm⟩
    | some link =>
        obtain ⟨child, path⟩ := link
        simp only [Bounded.returns_bind, mapM_behind_returns, Bounded.returns_pure] at h
        obtain ⟨nodes, hnodes, moved, hmoved, rfl⟩ := h
        exact .inr ⟨child, path, nodes, moved, hlink, hnodes, hmoved, rfl⟩
  · rintro (⟨hlink, rfl⟩ | ⟨child, path, nodes, moved, hlink, hnodes, hmoved, rfl⟩)
    · exact ⟨none, hlink, Bounded.returns_pure.mpr rfl⟩
    · refine ⟨some (child, path), hlink, ?_⟩
      simp only [Bounded.returns_bind, mapM_behind_returns, Bounded.returns_pure]
      exact ⟨nodes, hnodes, moved, hmoved, rfl⟩

/-- The items that stay, and the nodes behind the links of the others. -/
theorem parts_eq {parts : List (Option δ × List (NodeDiff κ δ π))}
    (h : List.Forall₂ (fun item part => (contribution follow recurse k item).Returns part) items
      parts) :
    parts.filterMap (·.1) = remaining follow k items ∧
      ∀ n, n ∈ (parts.map (·.2)).flatten ↔ ∃ item ∈ items, ∃ child path nodes m,
        follow k item = .ok (some (child, .ok path)) ∧ (recurse child).Returns nodes ∧ m ∈ nodes ∧
          n = m.behind path := by
  induction h with
  | nil => simp [remaining]
  | @cons item part items parts hpart _ ih =>
      obtain ⟨hremaining, hnodes⟩ := ih
      rcases contribution_returns.mp hpart with ⟨hlink, rfl⟩ |
        ⟨child, path, ns, moved, hlink, hns, hmoved, rfl⟩
      · refine ⟨?_, fun n => ?_⟩
        · simp [remaining, hlink] at hremaining ⊢
          exact hremaining
        · simp [hnodes, hlink]
      · refine ⟨?_, fun n => ?_⟩
        · simp [remaining, hlink] at hremaining ⊢
          exact hremaining
        · rw [List.map_cons, List.flatten_cons, List.mem_append, hnodes]
          constructor
          · rintro (hn | ⟨item', hitem', rest⟩)
            · obtain ⟨p, rfl, m, hm, rfl⟩ := hmoved.mem_iff.mp hn
              exact ⟨item, List.mem_cons_self, child, p, ns, m, hlink, hns, hm, rfl⟩
            · exact ⟨item', List.mem_cons_of_mem _ hitem', rest⟩
          · rintro ⟨item', hitem', child', path', ns', m, hlink', hns', hm, rfl⟩
            rcases List.mem_cons.mp hitem' with rfl | hitem'
            · rw [hlink] at hlink'
              cases hlink'
              obtain rfl := hns.unique hns'
              exact .inl (hmoved.mem_iff.mpr ⟨path', rfl, m, hm, rfl⟩)
            · exact .inr ⟨item', hitem', child', path', ns', m, hlink', hns', hm, rfl⟩

/-- What is reported for a pair itself, and what is behind its links. -/
theorem mem_treeDiff_succ (h : (treeDiff compare follow (fuel + 1) k).Returns nodes) :
    ∃ items, compare k = .ok items ∧
      (∀ item ∈ items, ∀ child path, follow k item = .ok (some (child, path)) →
        ∃ below, (treeDiff compare follow fuel child).Returns below) ∧
      ∀ n, n ∈ nodes ↔ (remaining follow k items ≠ [] ∧ n = ⟨k, [], remaining follow k items⟩) ∨
        ∃ item ∈ items, ∃ child path below m, follow k item = .ok (some (child, .ok path)) ∧
          (treeDiff compare follow fuel child).Returns below ∧ m ∈ below ∧
            n = m.behind path := by
  simp only [treeDiff, Bounded.returns_bind, Bounded.returns_ofExcept, Bounded.mapM_returns,
    Bounded.returns_pure] at h
  obtain ⟨items, hitems, parts, hparts, rfl⟩ := h
  obtain ⟨hremaining, hnodes⟩ := parts_eq hparts
  refine ⟨items, hitems, fun item hitem child path hlink => ?_, fun n => ?_⟩
  · obtain ⟨part, -, hpart⟩ := hparts.exists_of_mem_left hitem
    rcases contribution_returns.mp hpart with ⟨hlink', -⟩ |
      ⟨child', path', ns, moved, hlink', hns, -⟩
    · rw [hlink] at hlink'
      cases hlink'
    · rw [hlink] at hlink'
      cases hlink'
      exact ⟨ns, hns⟩
  · rw [hremaining]
    cases hempty : remaining follow k items with
    | nil => simp [hnodes]
    | cons item rest =>
        rw [List.isEmpty_cons, if_neg Bool.false_ne_true, List.mem_append, List.mem_singleton,
          hnodes, or_comm]
        simp

/-- The reported differences are those of the pairs that the first one leads to: each has the
path along which its pair is reached, and the items of the comparison that are not about links. -/
theorem mem_treeDiff_iff (h : (treeDiff compare follow fuel k).Returns nodes) :
    n ∈ nodes ↔ Leads compare follow k n.path n.pair ∧
      ∃ items, compare n.pair = .ok items ∧ n.items = remaining follow n.pair items ∧
        n.items ≠ [] := by
  induction fuel generalizing k nodes n with
  | zero => exact absurd h Bounded.not_returns_exhausted
  | succ fuel ih =>
      obtain ⟨items, hitems, hreturns, hnodes⟩ := mem_treeDiff_succ h
      rw [hnodes]
      constructor
      · rintro (⟨hne, rfl⟩ | ⟨item, hitem, child, path, below, m, hlink, hbelow, hm, rfl⟩)
        · exact ⟨.refl, items, hitems, rfl, hne⟩
        · obtain ⟨hleads, rest⟩ := (ih hbelow).mp hm
          exact ⟨.link hitems hitem hlink hleads, rest⟩
      · obtain ⟨pair, path, found⟩ := n
        rintro ⟨hleads, items', hitems', hfound, hne⟩
        cases hleads with
        | refl =>
            rw [hitems] at hitems'
            cases hitems'
            refine .inl ⟨fun hnil => hne (hfound.trans hnil), ?_⟩
            simp only [NodeDiff.mk.injEq, true_and]
            exact hfound
        | @link _ items'' item child first rest _ hitems'' hitem hlink hrest =>
            rw [hitems] at hitems''
            cases hitems''
            obtain ⟨below, hbelow⟩ := hreturns item hitem child (.ok first) hlink
            exact .inr ⟨item, hitem, child, first, below, ⟨pair, rest, found⟩, hlink, hbelow,
              (ih hbelow).mpr ⟨hrest, items', hitems', hfound, hne⟩, rfl⟩

/-- Nothing is reported exactly if all items are about links behind which nothing is reported. -/
theorem treeDiff_eq_nil_iff : (treeDiff compare follow (fuel + 1) k).Returns [] ↔
    ∃ items, compare k = .ok items ∧ ∀ item ∈ items, ∃ child path,
      follow k item = .ok (some (child, path)) ∧
        (treeDiff compare follow fuel child).Returns [] := by
  simp only [treeDiff, Bounded.returns_bind, Bounded.returns_ofExcept, Bounded.mapM_returns,
    Bounded.returns_pure]
  constructor
  · rintro ⟨items, hitems, parts, hparts, h⟩
    refine ⟨items, hitems, fun item hitem => ?_⟩
    have hrelevant : parts.filterMap (·.1) = [] ∧ (parts.map (·.2)).flatten = [] := by
      split at h
      case isTrue hempty => exact ⟨List.isEmpty_iff.mp hempty, h⟩
      case isFalse => simp at h
    obtain ⟨part, hpart, hreturns⟩ := hparts.exists_of_mem_left hitem
    rcases contribution_returns.mp hreturns with ⟨-, rfl⟩ |
      ⟨child, path, below, moved, hlink, hbelow, hmoved, rfl⟩
    · exact absurd (List.filterMap_eq_nil_iff.mp hrelevant.1 _ hpart) (by simp)
    · have hnil : moved = [] :=
        List.flatten_eq_nil_iff.mp hrelevant.2 _ (List.mem_map_of_mem hpart)
      rw [hnil, Moved, List.forall₂_nil_right_iff] at hmoved
      rw [hmoved] at hbelow
      exact ⟨child, path, hlink, hbelow⟩
  · rintro ⟨items, hitems, hlinks⟩
    refine ⟨items, hitems, items.map fun _ => (none, []), ?_, by simp⟩
    rw [List.forall₂_map_right_iff, List.forall₂_same]
    intro item hitem
    obtain ⟨child, path, hlink, hbelow⟩ := hlinks item hitem
    exact contribution_returns.mpr (.inr ⟨child, path, [], [], hlink, hbelow, .nil, rfl⟩)

theorem treeDiff_below (fuel : ℕ) (k : κ) :
    Bounded.Below (treeDiff compare follow fuel k) (treeDiff compare follow (fuel + 1) k) := by
  induction fuel generalizing k with
  | zero => exact Bounded.below_exhausted _
  | succ fuel ih =>
      rw [treeDiff, treeDiff]
      refine (Bounded.Below.refl _).bind fun items => ?_
      refine (Bounded.mapM_below fun item => ?_).bind fun parts => Bounded.Below.refl _
      refine (Bounded.Below.refl _).bind fun link => ?_
      cases link with
      | none => exact Bounded.Below.refl _
      | some link => exact (ih link.1).bind fun _ => Bounded.Below.refl _

/-- Where links do not lead on for ever, and nothing throws, the comparison comes to an end. -/
theorem exists_treeDiff (hk : Acc (fun child k => Links compare follow k child) k)
    (hok : ∀ path k', Leads compare follow k path k' →
      ∃ items, compare k' = .ok items ∧ ∀ item ∈ items, follow k' item = .ok none ∨
        ∃ child path, follow k' item = .ok (some (child, .ok path))) :
    ∃ fuel nodes, (treeDiff compare follow fuel k).Returns nodes := by
  induction hk with
  | intro k _ ih =>
      obtain ⟨items, hitems, hlinks⟩ := hok [] k .refl
      have hparts : ∀ item ∈ items, ∃ part : Option δ × List (NodeDiff κ δ π), ∃ fuel,
          (contribution follow (treeDiff compare follow fuel) k item).Returns part := by
        intro item hitem
        rcases hlinks item hitem with hlink | ⟨child, path, hlink⟩
        · exact ⟨_, 0, contribution_returns.mpr (.inl ⟨hlink, rfl⟩)⟩
        · obtain ⟨fuel, nodes, hnodes⟩ := ih child ⟨items, item, .ok path, hitems, hitem, hlink⟩
            fun rest k' hrest => hok _ k' (.link hitems hitem hlink hrest)
          have hmoved : Moved (.ok path : Except ε (List π)) nodes (nodes.map (·.behind path)) := by
            rw [Moved, List.forall₂_map_right_iff, List.forall₂_same]
            exact fun n _ => ⟨path, rfl, rfl⟩
          exact ⟨_, fuel, contribution_returns.mpr
            (.inr ⟨child, .ok path, nodes, _, hlink, hnodes, hmoved, rfl⟩)⟩
      obtain ⟨parts, hall⟩ := List.Forall₂.exists_of_forall hparts
      have hmono (fuel : ℕ) (item : δ) : Bounded.Below
          (contribution follow (treeDiff compare follow fuel) k item)
          (contribution follow (treeDiff compare follow (fuel + 1)) k item) := by
        refine (Bounded.Below.refl _).bind fun link => ?_
        cases link with
        | none => exact Bounded.Below.refl _
        | some link => exact (treeDiff_below fuel link.1).bind fun _ => Bounded.Below.refl _
      obtain ⟨fuel, hfuel⟩ := Bounded.exists_mapM_returns hmono hall
      refine ⟨fuel + 1, if (parts.filterMap (·.1)).isEmpty then (parts.map (·.2)).flatten
        else (parts.map (·.2)).flatten ++ [⟨k, [], parts.filterMap (·.1)⟩], ?_⟩
      simp only [treeDiff, Bounded.returns_bind, Bounded.returns_ofExcept, Bounded.returns_pure]
      exact ⟨items, hitems, parts, hfuel, rfl⟩

end

end LinkedDiff
