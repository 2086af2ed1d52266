import Longest.Proofs.Tree.Address
import Longest.Tree.Diameter
import Mathlib.Order.MinMax

/-!
# The diameter is the greatest distance

Two addresses part at the address that they share.  If they share a side, they
lie in one subtree; otherwise the way from one to the other has the root on top,
and is no longer than the heights of the two sides allow.  Conversely the
deepest nodes on both sides are that far apart, so some pair of nodes attains
the length of the longest path seen by the visit.
-/

namespace Longest

namespace Tree

variable {α : Type}

/-! ## Heights and running maximum of the visit -/

/-- The height as the visit counts it, with -1 for the absent tree. -/
def depth : Tree α → Int
  | empty => -1
  | node value left right => (node value left right).height

theorem neg_one_le_depth (tree : Tree α) : -1 ≤ tree.depth := by
  cases tree with
  | empty => exact Int.le_refl _
  | node value left right =>
      simp only [depth]
      omega

theorem one_add_depth (tree : Tree α) :
    1 + tree.depth = (if tree.isEmpty then 0 else 1 + tree.height : Nat) := by
  cases tree with
  | empty => rfl
  | node value left right => exact (Int.natCast_add 1 _).symm

theorem height_eq_toNat_depth (tree : Tree α) :
    tree.height = tree.depth.toNat := by
  cases tree <;> rfl

theorem depth_node (value : α) (left right : Tree α) :
    (node value left right).depth = rise left.depth right.depth := by
  have leftBelow := one_add_depth left
  have rightBelow := one_add_depth right
  rw [depth, height, rise]
  omega

@[simp]
theorem visit_node (value : α) (left right : Tree α) (diameter : Int) :
    (node value left right).visit diameter =
      let leftVisit := left.visit diameter
      let rightVisit := right.visit leftVisit.2
      (rise leftVisit.1 rightVisit.1,
        max rightVisit.2 (apex leftVisit.1 rightVisit.1)) :=
  rfl

theorem visit_fst (tree : Tree α) (diameter : Int) :
    (tree.visit diameter).1 = tree.depth := by
  induction tree generalizing diameter with
  | empty => rfl
  | node value left right leftIH rightIH =>
      rw [visit_node, depth_node]
      simp only [leftIH, rightIH]

/--
A greater diameter at the beginning only matters if it is still the
greatest at the end.
-/
theorem visit_max_snd (tree : Tree α) (first second : Int) :
    (tree.visit (max first second)).2 = max first (tree.visit second).2 := by
  induction tree generalizing second with
  | empty => rfl
  | node value left right leftIH rightIH =>
      simp only [visit_node, visit_fst, leftIH, rightIH, max_assoc]

theorem visit_zero_snd (tree : Tree α) : (tree.visit 0).2 = tree.diameter := by
  have nonneg : 0 ≤ (tree.visit 0).2 := by
    rw [← max_self (0 : Int), visit_max_snd]
    exact le_max_left _ _
  exact (Int.toNat_of_nonneg nonneg).symm

/-- What a visit does, from whatever diameter was seen before. -/
theorem visit_of_nonneg
    (tree : Tree α) {diameter : Int} (nonneg : 0 ≤ diameter) :
    tree.visit diameter = (tree.depth, max diameter tree.diameter) := by
  have raised := visit_max_snd tree diameter 0
  rw [max_eq_left nonneg, visit_zero_snd] at raised
  exact Prod.ext (visit_fst tree diameter) raised

@[simp]
theorem diameter_empty : (empty : Tree α).diameter = 0 :=
  rfl

/-- The longest path lies on one side of the root, or has the root on top. -/
theorem diameter_node (value : α) (left right : Tree α) :
    ((node value left right).diameter : Int) =
      max (max (left.diameter : Int) right.diameter)
        (apex left.depth right.depth) := by
  rw [← visit_zero_snd, visit_node]
  simp only [visit_fst, visit_zero_snd]
  rw [visit_of_nonneg right (Int.natCast_nonneg _)]

theorem depth_le_diameter (tree : Tree α) : tree.depth ≤ tree.diameter := by
  cases tree with
  | empty => exact (by decide : (-1 : Int) ≤ 0)
  | node value left right =>
      have leftDepth := neg_one_le_depth left
      have rightDepth := neg_one_le_depth right
      rw [depth_node, diameter_node, rise, apex]
      omega

theorem diameter_child_le (value : α) (left right : Tree α) (side : Side) :
    ((node value left right).child side).diameter ≤
      (node value left right).diameter := by
  have longest := diameter_node value left right
  cases side <;> simp only [child] <;> omega

/-! ## Depths of nodes -/

theorem length_le_depth
    {tree : Tree α} {address : Address} (hasNode : tree.HasNode address) :
    (address.length : Int) ≤ tree.depth := by
  induction address generalizing tree with
  | nil =>
      cases tree with
      | empty => exact absurd hasNode (not_hasNode_empty [])
      | node value left right => exact Int.natCast_nonneg _
  | cons side address induction =>
      cases tree with
      | empty => exact absurd hasNode (not_hasNode_empty _)
      | node value left right =>
          have shorter :=
            induction ((hasNode_cons value left right side address).mp hasNode)
          rw [depth_node, List.length_cons]
          cases side <;> simp only [child] at shorter <;> simp only [rise] <;>
            omega

/--
Under a side of the root whose deepest node is known lies an address of the
corresponding length; it is the root's own if that side is empty.
-/
theorem exists_hasNode_below
    (value : α) (left right : Tree α) (side : Side)
    (deepest :
      (node value left right).child side ≠ empty →
        ∃ address, ((node value left right).child side).HasNode address ∧
          (address.length : Int) = ((node value left right).child side).depth) :
    ∃ address, (node value left right).HasNode address ∧
      (address.length : Int) = 1 + ((node value left right).child side).depth ∧
        ∀ first ∈ address.head?, first = side := by
  by_cases isEmpty : (node value left right).child side = empty
  · exact ⟨[], hasNode_nil value left right, by simp [isEmpty, depth], by simp⟩
  · rcases deepest isEmpty with ⟨address, hasNode, sameLength⟩
    refine ⟨side :: address, hasNode.cons, ?_, by simp⟩
    rw [List.length_cons, ← sameLength]
    omega

theorem exists_hasNode_depth {tree : Tree α} (nonempty : tree ≠ empty) :
    ∃ address, tree.HasNode address ∧ (address.length : Int) = tree.depth := by
  induction tree with
  | empty => exact absurd rfl nonempty
  | node value left right leftIH rightIH =>
      rw [depth_node, rise]
      rcases max_choice left.depth right.depth with isLeft | isRight
      · rcases exists_hasNode_below value left right .left leftIH with
          ⟨address, hasNode, sameLength, _⟩
        rw [isLeft]
        exact ⟨address, hasNode, sameLength⟩
      · rcases exists_hasNode_below value left right .right rightIH with
          ⟨address, hasNode, sameLength, _⟩
        rw [isRight]
        exact ⟨address, hasNode, sameLength⟩

/-! ## Distances -/

/--
Two addresses lead into one child, or part at the root, which is then
on top of the way.
-/
theorem distance_le_diameter
    {tree : Tree α} {first second : Address}
    (hasFirst : tree.HasNode first) (hasSecond : tree.HasNode second) :
    Address.distance first second ≤ tree.diameter := by
  induction first generalizing tree second with
  | nil =>
      have shorter :=
        Int.le_trans (length_le_depth hasSecond) tree.depth_le_diameter
      rw [Address.distance_nil_left]
      exact Int.ofNat_le.mp shorter
  | cons firstSide first induction =>
      cases second with
      | nil =>
          have shorter :=
            Int.le_trans (length_le_depth hasFirst) tree.depth_le_diameter
          rw [Address.distance_nil_right]
          exact Int.ofNat_le.mp shorter
      | cons secondSide second =>
          cases tree with
          | empty => exact absurd hasFirst (not_hasNode_empty _)
          | node value left right =>
              rw [hasNode_cons] at hasFirst hasSecond
              by_cases same : firstSide = secondSide
              · subst same
                rw [Address.distance_cons_self]
                exact Nat.le_trans (induction hasFirst hasSecond)
                  (diameter_child_le value left right firstSide)
              · have firstLength := length_le_depth hasFirst
                have secondLength := length_le_depth hasSecond
                have longest := diameter_node value left right
                rw [Address.distance_cons_of_ne same, List.length_cons,
                  List.length_cons]
                simp only [apex] at longest
                cases firstSide with
                | left =>
                    cases secondSide with
                    | left => exact absurd rfl same
                    | right =>
                        simp only [child] at firstLength secondLength
                        omega
                | right =>
                    cases secondSide with
                    | left =>
                        simp only [child] at firstLength secondLength
                        omega
                    | right => exact absurd rfl same

/--
A pair that is as far apart as the diameter of one side serves for the whole
tree.
-/
theorem exists_distance_of_child
    (value : α) (left right : Tree α) (side : Side)
    (known :
      (node value left right).child side ≠ empty →
        ∃ first second, ((node value left right).child side).HasNode first ∧
          ((node value left right).child side).HasNode second ∧
          Address.distance first second =
            ((node value left right).child side).diameter) :
    ∃ first second, (node value left right).HasNode first ∧
      (node value left right).HasNode second ∧
      Address.distance first second =
        ((node value left right).child side).diameter := by
  by_cases isEmpty : (node value left right).child side = empty
  · refine ⟨[], [], hasNode_nil value left right, hasNode_nil value left right,
      ?_⟩
    rw [isEmpty, diameter_empty, Address.distance_nil_left, List.length_nil]
  · rcases known isEmpty with ⟨first, second, hasFirst, hasSecond, apart⟩
    exact ⟨side :: first, side :: second, hasFirst.cons, hasSecond.cons,
      (Address.distance_cons_self side first second).trans apart⟩

/--
The deepest nodes on both sides are as far apart as a path over the
root can be long.
-/
theorem exists_distance_eq_apex (value : α) (left right : Tree α) :
    ∃ first second, (node value left right).HasNode first ∧
      (node value left right).HasNode second ∧
      (Address.distance first second : Int) = apex left.depth right.depth := by
  rcases exists_hasNode_below value left right .left exists_hasNode_depth with
    ⟨first, hasFirst, firstLength, firstSide⟩
  rcases exists_hasNode_below value left right .right exists_hasNode_depth with
    ⟨second, hasSecond, secondLength, secondSide⟩
  refine ⟨first, second, hasFirst, hasSecond, ?_⟩
  have apart :
      Address.distance first second = first.length + second.length := by
    cases first with
    | nil => rw [Address.distance_nil_left, List.length_nil, Nat.zero_add]
    | cons side first =>
        cases second with
        | nil => rw [Address.distance_nil_right, List.length_nil, Nat.add_zero]
        | cons side' second =>
            have isLeft := firstSide side rfl
            have isRight := secondSide side' rfl
            subst isLeft isRight
            exact Address.distance_cons_of_ne (by decide) first second
  simp only [child] at firstLength secondLength
  rw [apart, apex]
  omega

theorem exists_distance_eq_diameter {tree : Tree α} (nonempty : tree ≠ empty) :
    ∃ first second, tree.HasNode first ∧ tree.HasNode second ∧
      Address.distance first second = tree.diameter := by
  induction tree with
  | empty => exact absurd rfl nonempty
  | node value left right leftIH rightIH =>
      have longest := diameter_node value left right
      rcases max_choice (max (left.diameter : Int) right.diameter)
        (apex left.depth right.depth) with
          onOneSide | overRoot
      · rcases max_choice (left.diameter : Int) right.diameter with
          isLeft | isRight
        · rw [onOneSide, isLeft] at longest
          rw [Int.ofNat_inj.mp longest]
          exact exists_distance_of_child value left right .left leftIH
        · rw [onOneSide, isRight] at longest
          rw [Int.ofNat_inj.mp longest]
          exact exists_distance_of_child value left right .right rightIH
      · rcases exists_distance_eq_apex value left right with
          ⟨first, second, hasFirst, hasSecond, apart⟩
        rw [overRoot, ← apart] at longest
        exact ⟨first, second, hasFirst, hasSecond,
          (Int.ofNat_inj.mp longest).symm⟩

/--
The diameter is the greatest distance of two nodes: no pair is farther
apart, and in a nonempty tree some pair is as far apart.  The empty
tree has diameter 0.
-/
theorem diameter_isGreatest_distance (tree : Tree α) :
    (∀ first second, tree.HasNode first → tree.HasNode second →
      Address.distance first second ≤ tree.diameter) ∧
      (tree ≠ empty →
        ∃ first second, tree.HasNode first ∧ tree.HasNode second ∧
          Address.distance first second = tree.diameter) ∧
      (tree = empty → tree.diameter = 0) := by
  refine ⟨fun first second => distance_le_diameter, exists_distance_eq_diameter,
    ?_⟩
  rintro rfl
  exact diameter_empty

/-- A tree whose longest path does not meet the root. -/
def forked : Tree Nat :=
  node 1
    (node 2 (node 3 (node 5 (leaf 7) empty) empty)
      (node 4 empty (node 6 empty (leaf 8))))
    empty

/--
The two deepest leaves of the forked tree are the ends of a longest path, which
turns below the root; in the empty tree there is no path.
-/
theorem diameter_forked :
    (forked.HasNode [.left, .left, .left, .left] ∧
        forked.HasNode [.left, .right, .right, .right] ∧
        Address.distance
            [.left, .left, .left, .left] [.left, .right, .right, .right] = 6 ∧
        6 ≤ forked.diameter) ∧
      (forked ≠ empty ∧
        ∃ first second, forked.HasNode first ∧ forked.HasNode second ∧
          Address.distance first second = 6) ∧
      (empty : Tree Nat).diameter = 0 := by
  have deepLeft : forked.HasNode [.left, .left, .left, .left] :=
    ⟨7, empty, empty, rfl⟩
  have deepRight : forked.HasNode [.left, .right, .right, .right] :=
    ⟨8, empty, empty, rfl⟩
  have nonempty : forked ≠ empty := by
    rintro same
    cases same
  exact ⟨⟨deepLeft, deepRight, rfl,
    (diameter_isGreatest_distance forked).1 _ _ deepLeft deepRight⟩,
    ⟨nonempty, (diameter_isGreatest_distance forked).2.1 nonempty⟩,
    (diameter_isGreatest_distance empty).2.2 rfl⟩

end Tree

end Longest
