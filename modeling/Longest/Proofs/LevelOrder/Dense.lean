import Longest.Proofs.LevelOrder.Detached
import Longest.Proofs.LevelOrder.Seating
import Longest.Proofs.Tree.Bounds
import Mathlib.Algebra.Group.Nat.Defs
import Mathlib.Data.Nat.Log

/-!
# Level orders without absent entries

If all entries of a level order are values, the rank of a place is the place
itself, so the children of the node at place `p` stand at `2 * p + 1` and
`2 * p + 2`, as long as the list goes on.  The tree at place `p` therefore
reaches `level` levels further down exactly if `(p + 1) * 2 ^ level` is no more
than the length of the list.  At the root and at its two children this gives the
height of the tree and the path over its root, which is the longest one.
-/

namespace Longest.LevelOrder

open Longest.Tree

variable {α : Type} {values : List α} {tree : Tree α}

/-! ## Places without gaps -/

@[simp]
theorem entryAt_map_some (values : List α) (place : Nat) :
    entryAt (values.map some) place = values[place]? := by
  rw [entryAt, List.getElem?_map]
  cases values[place]? <;> rfl

theorem rank_map_some {place : Nat} (inside : place ≤ values.length) :
    rank (values.map some) place = place := by
  induction place with
  | zero => rfl
  | succ place induction =>
      have entry : entryAt (values.map some) place = some values[place] := by
        rw [entryAt_map_some, List.getElem?_eq_getElem inside]
      rw [rank_succ_of_some entry, induction (Nat.le_of_succ_le inside)]

theorem attached_map_some (values : List α) : Attached (values.map some) := by
  intro place value entry
  have inside : place < values.length := by
    simpa only [List.length_map] using lt_length_of_entryAt entry
  rw [rank_map_some (Nat.le_of_lt inside)]
  omega

/-- How far down the tree at a place reaches. -/
theorem IsTreeAt.le_depth_iff
    {place : Nat} (isTree : IsTreeAt (values.map some) place tree)
    (level : Nat) :
    (level : Int) ≤ tree.depth ↔ (place + 1) * 2 ^ level ≤ values.length := by
  induction isTree generalizing level with
  | @absent place entry =>
      have outside : values.length ≤ place := by
        rw [entryAt_map_some] at entry
        exact List.getElem?_eq_none_iff.mp entry
      have larger : (place + 1) * 1 ≤ (place + 1) * 2 ^ level :=
        Nat.mul_le_mul_left _ Nat.one_le_two_pow
      simp only [depth]
      omega
  | @present place value left right entry isLeft isRight leftIH rightIH =>
      have inside : place < values.length := by
        simpa only [List.length_map] using lt_length_of_entryAt entry
      rw [rank_map_some (Nat.le_of_lt inside)] at leftIH rightIH
      have leftDepth := neg_one_le_depth left
      rw [depth_node, rise]
      cases level with
      | zero => omega
      | succ level =>
          have leftReaches := leftIH level
          have rightReaches := rightIH level
          have doubled :
              (place + 1) * 2 ^ (level + 1) =
                (2 * place + 1 + 1) * 2 ^ level := by
            rw [Nat.pow_succ', ← Nat.mul_assoc, Nat.mul_comm (place + 1),
              Nat.mul_succ]
          have later :
              (2 * place + 1 + 1) * 2 ^ level ≤
                (2 * place + 2 + 1) * 2 ^ level :=
            Nat.mul_le_mul_right _ (Nat.le_succ _)
          rw [doubled]
          omega

theorem IsTreeAt.depth_eq
    {place level : Nat} (isTree : IsTreeAt (values.map some) place tree)
    (reached : (place + 1) * 2 ^ level ≤ values.length)
    (ended : values.length < (place + 1) * 2 ^ (level + 1)) :
    tree.depth = level := by
  have reaches := (isTree.le_depth_iff level).mpr reached
  have stops := mt (isTree.le_depth_iff (level + 1)).mp (Nat.not_le.mpr ended)
  omega

theorem IsTreeAt.depth_eq_neg_one
    {place : Nat} (isTree : IsTreeAt (values.map some) place tree)
    (outside : values.length ≤ place) :
    tree.depth = -1 := by
  have stops := mt (isTree.le_depth_iff 0).mp (by omega)
  have lower := neg_one_le_depth tree
  omega

/-- The tree on the left of the root reaches down to the last level. -/
theorem IsTreeAt.depth_of_left
    {height : Nat} (isTree : IsTreeAt (values.map some) 1 tree)
    (lower : 2 ^ (height + 1) ≤ values.length)
    (upper : values.length < 2 ^ (height + 1 + 1)) :
    tree.depth = height := by
  rw [Nat.pow_succ'] at lower upper
  exact isTree.depth_eq lower upper

/--
The tree on the right reaches down to the last level if this is
more than half full.
-/
theorem IsTreeAt.depth_of_right
    {height : Nat} (isTree : IsTreeAt (values.map some) 2 tree)
    (lower : 2 ^ (height + 1) ≤ values.length)
    (upper : values.length < 2 ^ (height + 1 + 1)) :
    tree.depth =
      if 3 * 2 ^ height ≤ values.length then (height : Int)
      else height - 1 := by
  simp only [Nat.pow_succ] at lower upper
  split_ifs with filled
  · exact isTree.depth_eq filled (by rw [Nat.pow_succ]; omega)
  · cases height with
    | zero => exact isTree.depth_eq_neg_one (by omega)
    | succ height =>
        have reached : (2 + 1) * 2 ^ height ≤ values.length := by
          rw [Nat.pow_succ] at lower
          omega
        rw [isTree.depth_eq reached (Nat.lt_of_not_le filled), Int.natCast_succ,
          Int.add_sub_cancel]

/-! ## Height and diameter -/

/--
The diameter of a complete tree with this many nodes.  The path over the root
goes down to the last level on both sides if this level is more than half full.
-/
def completeDiameter (size : Nat) : Nat :=
  if size = 1 then 0
  else if 3 * 2 ^ (Nat.log 2 size - 1) ≤ size then 2 * Nat.log 2 size
  else 2 * Nat.log 2 size - 1

section Whole

variable (nonempty : values ≠ []) (isTree : IsTreeAt (values.map some) 0 tree)

include nonempty

theorem log_length_bounds :
    2 ^ Nat.log 2 values.length ≤ values.length ∧
      values.length < 2 ^ (Nat.log 2 values.length + 1) :=
  ⟨Nat.pow_log_le_self 2 (mt List.eq_nil_of_length_eq_zero nonempty),
    Nat.lt_pow_succ_log_self Nat.one_lt_two values.length⟩

include isTree

theorem IsTreeAt.depth_eq_log : tree.depth = Nat.log 2 values.length := by
  have ⟨lower, upper⟩ := log_length_bounds nonempty
  apply isTree.depth_eq
  · rwa [Nat.zero_add, Nat.one_mul]
  · rwa [Nat.zero_add, Nat.one_mul]

theorem IsTreeAt.diameter_eq :
    tree.diameter = completeDiameter values.length := by
  have ⟨lower, upper⟩ := log_length_bounds nonempty
  cases isTree with
  | absent entry =>
      rw [entryAt_map_some, List.getElem?_eq_none_iff] at entry
      exact absurd
        (List.eq_nil_of_length_eq_zero (Nat.eq_zero_of_le_zero entry)) nonempty
  | @present _ value left right entry isLeft isRight =>
      by_cases single : values.length = 1
      · have leftDepth : left.depth = -1 :=
          isLeft.depth_eq_neg_one (Nat.le_of_eq single)
        have rightDepth : right.depth = -1 :=
          isRight.depth_eq_neg_one (by omega)
        have longest :=
          diameter_node_of_balanced value left right (by omega) (by omega)
        rw [leftDepth, rightDepth] at longest
        rw [completeDiameter, if_pos single]
        exact Int.ofNat_inj.mp longest
      · have positive : 0 < Nat.log 2 values.length :=
          Nat.log_pos Nat.one_lt_two (by omega)
        rcases Nat.exists_eq_add_one.mpr positive with ⟨height, isHeight⟩
        rw [isHeight] at lower upper
        have leftDepth := isLeft.depth_of_left lower upper
        have rightDepth := isRight.depth_of_right lower upper
        have balanced :
            right.depth ≤ left.depth ∧ left.depth ≤ right.depth + 1 := by
          rw [leftDepth, rightDepth]
          split_ifs <;> omega
        have longest :=
          diameter_node_of_balanced value left right balanced.1 balanced.2
        rw [apex, leftDepth, rightDepth] at longest
        rw [completeDiameter, if_neg single, isHeight, Nat.add_sub_cancel]
        split_ifs at longest ⊢ <;> omega

end Whole

theorem exists_ofEntries?_map_some (values : List α) :
    ∃ tree, Tree.ofEntries? (values.map some) = .ok tree :=
  exists_ofEntries?_eq_ok_iff.mpr
    (attached_iff_not_isDetached.mp (attached_map_some values))

/--
A level order without absent entries is always read.  The tree has one node for
each value, its height is the logarithm of their number, and both ways to find
its diameter give that of the complete tree of this size.
-/
theorem ofEntries?_map_some (nonempty : values ≠ []) :
    ∃ tree, Tree.ofEntries? (values.map some) = .ok tree ∧
      tree.size = values.length ∧ tree.height = Nat.log 2 values.length ∧
      tree.diameter = completeDiameter values.length ∧
      tree.frameDiameter = completeDiameter values.length := by
  rcases exists_ofEntries?_map_some values with ⟨tree, read⟩
  have isTree := (ofEntries?_eq_ok_iff.mp read).2
  have diameter := isTree.diameter_eq nonempty
  refine ⟨tree, read, ?_, ?_, diameter,
    (Walk.frameDiameter_eq tree).trans diameter⟩
  · rw [size_eq_countP read, List.countP_map]
    exact congrFun List.countP_true values
  · rw [height_eq_toNat_depth, isTree.depth_eq_log nonempty]
    rfl

/--
With five values the last level is half full; the sixth one makes the longest
path one edge longer.
-/
theorem ofEntries?_map_some_half_full :
    ([1, 2, 3, 4, 5] ≠ [] ∧
        ∃ tree, Tree.ofEntries? ([1, 2, 3, 4, 5].map some) = .ok tree ∧
          tree.size = 5 ∧ tree.height = 2 ∧ tree.diameter = 3 ∧
          tree.frameDiameter = 3) ∧
      [1, 2, 3, 4, 5, 6] ≠ [] ∧
      ∃ tree, Tree.ofEntries? ([1, 2, 3, 4, 5, 6].map some) = .ok tree ∧
        tree.size = 6 ∧ tree.height = 2 ∧ tree.diameter = 4 ∧
        tree.frameDiameter = 4 :=
  ⟨⟨by decide, ofEntries?_map_some (by decide)⟩, by decide,
    ofEntries?_map_some (by decide)⟩

end Longest.LevelOrder
