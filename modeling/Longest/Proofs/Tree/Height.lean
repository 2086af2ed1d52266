import Longest.Proofs.Tree.Diameter
import Mathlib.Order.Bounds.Basic

/-!
# Two ways to count the height

The visit counts an absent tree as -1, so that every node adds one to the height
below it.  The height of a tree counts an absent side as 0 and adds one only for
a side that is there.  Both come to the length of the longest address of a node.
-/

namespace Longest.Tree

variable {α : Type}

theorem depth_of_ne_empty {tree : Tree α} (nonempty : tree ≠ empty) :
    tree.depth = tree.height := by
  cases tree with
  | empty => exact absurd rfl nonempty
  | node value left right => rfl

theorem depth_eq_neg_one_iff {tree : Tree α} :
    tree.depth = -1 ↔ tree = empty := by
  constructor
  · intro isAbsent
    by_contra nonempty
    rw [depth_of_ne_empty nonempty] at isAbsent
    omega
  · rintro rfl
    rfl

theorem isGreatest_height {tree : Tree α} (nonempty : tree ≠ empty) :
    IsGreatest
      {length | ∃ address, tree.HasNode address ∧ address.length = length}
      tree.height := by
  have sameHeight := depth_of_ne_empty nonempty
  constructor
  · rcases exists_hasNode_depth nonempty with ⟨address, hasNode, sameLength⟩
    rw [sameHeight] at sameLength
    exact ⟨address, hasNode, Int.ofNat_inj.mp sameLength⟩
  · rintro length ⟨address, hasNode, rfl⟩
    have bounded := length_le_depth hasNode
    rw [sameHeight] at bounded
    exact Int.ofNat_le.mp bounded

theorem diameter_le_of_subtree?
    {tree subtree : Tree α} {address : Address}
    (found : tree.subtree? address = some subtree) :
    subtree.diameter ≤ tree.diameter :=
  measure_le_of_subtree? diameter_child_le found

/--
A visit from a diameter that is not negative returns the height of the tree, or
-1 if there is no tree, and the greater one of this diameter and that of the
tree.  So what it returns is below neither the diameter it started from nor that
of any subtree.  The height is the length of the longest address of a node.
-/
theorem visit_eq_height_max_diameter
    (tree : Tree α) {diameter : Int} (nonneg : 0 ≤ diameter) :
    (tree ≠ empty → (tree.visit diameter).1 = tree.height) ∧
      ((tree.visit diameter).1 = -1 ↔ tree = empty) ∧
      (tree.visit diameter).2 = max diameter tree.diameter ∧
      diameter ≤ (tree.visit diameter).2 ∧
      (∀ address subtree, tree.subtree? address = some subtree →
        (subtree.diameter : Int) ≤ (tree.visit diameter).2) ∧
      (tree ≠ empty →
        IsGreatest
          {length | ∃ address, tree.HasNode address ∧ address.length = length}
          tree.height) := by
  rw [visit_of_nonneg tree nonneg]
  refine ⟨depth_of_ne_empty, depth_eq_neg_one_iff, rfl, le_max_left _ _, ?_,
    isGreatest_height⟩
  intro address subtree found
  exact le_max_of_le_right (Int.ofNat_le.mpr (diameter_le_of_subtree? found))

/--
The path that decides the diameter of the forked tree lies below the root.
-/
theorem visit_forked :
    (0 : Int) ≤ 3 ∧ forked ≠ empty ∧ (forked.visit 3).1 = (4 : Nat) ∧
      (forked.visit 3).1 ≠ -1 ∧ (forked.visit 3).2 = max 3 6 ∧
      (∃ branches, forked.subtree? [.left] = some branches ∧
        (branches.diameter : Int) ≤ (forked.visit 3).2) ∧
      IsGreatest
        {length | ∃ address, forked.HasNode address ∧ address.length = length}
        4 := by
  have nonneg : (0 : Int) ≤ 3 := by decide
  have nonempty : forked ≠ empty := nofun
  rcases visit_eq_height_max_diameter forked nonneg with
    ⟨sameHeight, absent_iff, raised, _, below, longest⟩
  exact ⟨nonneg, nonempty, sameHeight nonempty, mt absent_iff.mp nonempty,
    raised, ⟨_, rfl, below [.left] _ rfl⟩, longest nonempty⟩

end Longest.Tree
