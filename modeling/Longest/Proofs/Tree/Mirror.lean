import Longest.Proofs.Tree.Frames

/-!
# Measures under mirroring

The measures of a node depend on its two sides only through the measures of
these, and on both sides in the same way.  So trees with the same measures can
stand for each other at any place of a larger tree, and the sides of a node can
be exchanged.  Together this makes it impossible to see in the measures of a
tree whether some part of it was mirrored.
-/

namespace Longest.Tree

variable {α : Type}

/-- Two trees between which no measure tells the difference. -/
structure SameMeasures (first second : Tree α) : Prop where
  depth : first.depth = second.depth
  size : first.size = second.size
  diameter : first.diameter = second.diameter

namespace SameMeasures

variable {first second third : Tree α}

theorem refl (tree : Tree α) : SameMeasures tree tree :=
  ⟨rfl, rfl, rfl⟩

theorem trans
    (same : SameMeasures first second) (same' : SameMeasures second third) :
    SameMeasures first third :=
  ⟨same.depth.trans same'.depth, same.size.trans same'.size,
    same.diameter.trans same'.diameter⟩

theorem height (same : SameMeasures first second) :
    first.height = second.height := by
  simp only [height_eq_toNat_depth, same.depth]

theorem frameDiameter (same : SameMeasures first second) :
    first.frameDiameter = second.frameDiameter := by
  simp only [Walk.frameDiameter_eq, same.diameter]

/-- Sides with the same measures make nodes with the same measures. -/
theorem node
    {left left' right right' : Tree α} (value : α)
    (sameLeft : SameMeasures left left')
    (sameRight : SameMeasures right right') :
    SameMeasures (node value left right) (node value left' right') where
  depth := by
    simp only [depth_node, sameLeft.depth, sameRight.depth]
  size := by
    simp only [Tree.size, sameLeft.size, sameRight.size]
  diameter := by
    apply Int.ofNat_inj.mp
    simp only [diameter_node, sameLeft.depth, sameLeft.diameter,
      sameRight.depth, sameRight.diameter]

theorem exchange (value : α) (left right : Tree α) :
    SameMeasures (.node value left right) (.node value right left) where
  depth := by
    simp only [depth_node, rise, max_comm]
  size := Nat.add_right_comm 1 left.size right.size
  diameter := by
    apply Int.ofNat_inj.mp
    simp only [diameter_node, apex, max_comm (left.diameter : Int),
      Int.add_right_comm 2 left.depth]

theorem mirror (tree : Tree α) : SameMeasures tree.mirror tree := by
  induction tree with
  | empty => exact refl empty
  | node value left right leftIH rightIH =>
      exact (rightIH.node value leftIH).trans (exchange value right left)

/--
A change that no measure shows where it is made does not show in the
whole tree either.
-/
theorem of_update?
    {change : Tree α → Tree α}
    (unseen : ∀ subtree, SameMeasures (change subtree) subtree)
    {tree changed : Tree α} {address : Address}
    (made : tree.update? change address = some changed) :
    SameMeasures changed tree := by
  induction address generalizing tree changed with
  | nil =>
      cases made
      exact unseen tree
  | cons side address induction =>
      cases tree with
      | empty => cases made
      | node value left right =>
          cases side with
          | left =>
              rcases Option.map_eq_some_iff.mp made with ⟨left', madeLeft, rfl⟩
              exact (induction madeLeft).node value (refl right)
          | right =>
              rcases Option.map_eq_some_iff.mp made with
                ⟨right', madeRight, rfl⟩
              exact (refl left).node value (induction madeRight)

end SameMeasures

/-- A change can be made wherever there is a place for a subtree. -/
theorem exists_update?
    (change : Tree α → Tree α) {tree subtree : Tree α} {address : Address}
    (found : tree.subtree? address = some subtree) :
    ∃ changed, tree.update? change address = some changed ∧
      changed.subtree? address = some (change subtree) := by
  have atPlace := subtree?_update? change tree address
  rw [found] at atPlace
  exact Option.bind_eq_some_iff.mp atPlace

/--
Mirroring the subtree at any place of a tree, be it the whole tree or empty,
changes neither the height nor the size nor the diameter of the tree, in
whichever of the two ways the diameter is found.
-/
theorem measures_of_mirrored_subtree
    {tree subtree : Tree α} {address : Address}
    (found : tree.subtree? address = some subtree) :
    ∃ changed, tree.update? mirror address = some changed ∧
      changed.subtree? address = some subtree.mirror ∧
      changed.height = tree.height ∧ changed.size = tree.size ∧
      changed.diameter = tree.diameter ∧
      changed.frameDiameter = tree.frameDiameter := by
  rcases exists_update? mirror found with ⟨changed, made, mirrored⟩
  have same : SameMeasures changed tree := .of_update? SameMeasures.mirror made
  exact ⟨changed, made, mirrored, same.height, same.size, same.diameter,
    same.frameDiameter⟩

/-- Below its root the forked tree has two branches that bend outwards. -/
theorem measures_of_forked_mirrored_below_root :
    let branches : Tree Nat :=
      node 2 (node 3 (node 5 (leaf 7) empty) empty)
        (node 4 empty (node 6 empty (leaf 8)))
    forked.subtree? [.left] = some branches ∧ branches.mirror ≠ branches ∧
      ∃ changed, forked.update? mirror [.left] = some changed ∧
        changed.subtree? [.left] = some branches.mirror ∧
          changed.height = 4 ∧ changed.size = 8 ∧ changed.diameter = 6 ∧
            changed.frameDiameter = 6 := by
  intro branches
  have found : forked.subtree? [.left] = some branches := rfl
  rcases measures_of_mirrored_subtree found with
    ⟨changed, made, mirrored, height, size, diameter, frameDiameter⟩
  refine ⟨found, by decide, changed, made, mirrored, height, size, diameter, ?_⟩
  exact frameDiameter.trans (Walk.frameDiameter_eq forked)

end Longest.Tree
