import Longest.Proofs.Tree.Frames

/-!
# Between height and size

The diameter of a nonempty tree lies between its height and both twice its
height and the number of its edges.  It reaches the number of edges exactly if
the whole tree is one path, that is, if no node below the root has two children.

A tree is *unforked* if none of its nodes has two children.  Its depth then
accounts for all of its nodes, and all of them lie on the way down to the
deepest one.  What matters for the diameter is whether both sides of the
root are unforked.
-/

namespace Longest.Tree

variable {α : Type}

/-! ## Bounds -/

theorem depth_add_one_le_size (tree : Tree α) : tree.depth + 1 ≤ tree.size := by
  induction tree with
  | empty => exact Int.le_refl _
  | node value left right leftIH rightIH =>
      simp only [depth_node, rise, size]
      omega

theorem height_le_diameter (tree : Tree α) : tree.height ≤ tree.diameter := by
  have shorter := depth_le_diameter tree
  rw [height_eq_toNat_depth]
  omega

theorem diameter_le_two_mul_height (tree : Tree α) :
    tree.diameter ≤ 2 * tree.height := by
  induction tree with
  | empty => exact Nat.le_refl _
  | node value left right leftIH rightIH =>
      have longest := diameter_node value left right
      have leftDepth := neg_one_le_depth left
      have rightDepth := neg_one_le_depth right
      simp only [height_eq_toNat_depth, depth_node, rise,
        apex] at leftIH rightIH longest ⊢
      omega

/--
If the sides of the root are about equally deep, the longest path has
the root on top.
-/
theorem diameter_node_of_balanced
    (value : α) (left right : Tree α) (notDeeper : right.depth ≤ left.depth)
    (close : left.depth ≤ right.depth + 1) :
    ((node value left right).diameter : Int) = apex left.depth right.depth := by
  have longest := diameter_node value left right
  have leftDiameter := diameter_le_two_mul_height left
  have rightDiameter := diameter_le_two_mul_height right
  have rightDepth := neg_one_le_depth right
  rw [height_eq_toNat_depth] at leftDiameter rightDiameter
  rw [apex] at longest ⊢
  omega

theorem diameter_le_size_sub_one (tree : Tree α) :
    tree.diameter ≤ tree.size - 1 := by
  induction tree with
  | empty => exact Nat.le_refl _
  | node value left right leftIH rightIH =>
      have longest := diameter_node value left right
      have leftDepth := depth_add_one_le_size left
      have rightDepth := depth_add_one_le_size right
      simp only [apex, size] at longest ⊢
      omega

/-! ## Forks -/

/-- At the address is a node with two children. -/
def IsFork (tree : Tree α) (address : Address) : Prop :=
  ∃ value left right, tree.subtree? address = some (node value left right) ∧
    left ≠ empty ∧ right ≠ empty

/-- No node has two children. -/
def IsUnforked (tree : Tree α) : Prop :=
  ∀ address, ¬ tree.IsFork address

theorem not_isFork_empty (address : Address) :
    ¬ (empty : Tree α).IsFork address := by
  rintro ⟨value, left, right, found, _⟩
  exact not_hasNode_empty address ⟨value, left, right, found⟩

@[simp]
theorem isFork_nil {value : α} {left right : Tree α} :
    (node value left right).IsFork [] ↔ left ≠ empty ∧ right ≠ empty := by
  constructor
  · rintro ⟨value', left', right', found, children⟩
    cases found
    exact children
  · exact fun children => ⟨value, left, right, rfl, children⟩

@[simp]
theorem isFork_cons
    {value : α} {left right : Tree α} {side : Side} {address : Address} :
    (node value left right).IsFork (side :: address) ↔
      ((node value left right).child side).IsFork address := by
  cases side <;> rfl

/-- No node below the root has two children if both sides are unforked. -/
theorem no_fork_below_iff {value : α} {left right : Tree α} :
    (∀ address, address ≠ [] → ¬ (node value left right).IsFork address) ↔
      left.IsUnforked ∧ right.IsUnforked := by
  constructor
  · intro noFork
    exact ⟨fun address isFork =>
        noFork (.left :: address) (by simp) (isFork_cons.mpr isFork),
      fun address isFork =>
        noFork (.right :: address) (by simp) (isFork_cons.mpr isFork)⟩
  · rintro ⟨leftUnforked, rightUnforked⟩ address below isFork
    cases address with
    | nil => exact below rfl
    | cons side address =>
        cases side with
        | left => exact leftUnforked address (isFork_cons.mp isFork)
        | right => exact rightUnforked address (isFork_cons.mp isFork)

theorem isUnforked_node_iff {value : α} {left right : Tree α} :
    (node value left right).IsUnforked ↔
      (left = empty ∨ right = empty) ∧ left.IsUnforked ∧ right.IsUnforked := by
  rw [← @no_fork_below_iff _ value]
  constructor
  · intro unforked
    refine ⟨?_, fun address _ => unforked address⟩
    have atRoot := unforked []
    simpa only [isFork_nil, not_and_or, not_not] using atRoot
  · rintro ⟨atRoot, below⟩ address isFork
    refine below address ?_ isFork
    rintro rfl
    have ⟨hasLeft, hasRight⟩ := isFork_nil.mp isFork
    exact atRoot.elim hasLeft hasRight

/-- In an unforked tree, and in no other one, every node adds to the depth. -/
theorem depth_add_one_eq_size_iff {tree : Tree α} :
    tree.depth + 1 = tree.size ↔ tree.IsUnforked := by
  induction tree with
  | empty => exact iff_of_true rfl not_isFork_empty
  | node value left right leftIH rightIH =>
      have leftDepth := neg_one_le_depth left
      have rightDepth := neg_one_le_depth right
      have leftSize := depth_add_one_le_size left
      have rightSize := depth_add_one_le_size right
      rw [isUnforked_node_iff, ← leftIH, ← rightIH, ← size_eq_zero_iff,
        ← size_eq_zero_iff, depth_node, rise, size]
      omega

theorem diameter_node_eq_size_iff {value : α} {left right : Tree α} :
    (node value left right).diameter = (node value left right).size - 1 ↔
      left.IsUnforked ∧ right.IsUnforked := by
  have longest := diameter_node value left right
  have leftDiameter := diameter_le_size_sub_one left
  have rightDiameter := diameter_le_size_sub_one right
  have leftDepth := neg_one_le_depth left
  have rightDepth := neg_one_le_depth right
  have leftSize := depth_add_one_le_size left
  have rightSize := depth_add_one_le_size right
  rw [← depth_add_one_eq_size_iff, ← depth_add_one_eq_size_iff]
  simp only [apex, size] at longest ⊢
  omega

/-! ## Paths -/

/-- All nodes lie on the way between two of them. -/
def IsPath (tree : Tree α) : Prop :=
  ∃ first second, tree.HasNode first ∧ tree.HasNode second ∧
    ∀ address, tree.HasNode address → Address.IsBetween first second address

/-- From the root of an unforked tree there is only one way down. -/
theorem IsUnforked.prefix_of_length_le
    {tree : Tree α} {first second : Address} (unforked : tree.IsUnforked)
    (hasFirst : tree.HasNode first) (hasSecond : tree.HasNode second)
    (shorter : first.length ≤ second.length) :
    first <+: second := by
  induction first generalizing tree second with
  | nil => exact List.nil_prefix
  | cons side first induction =>
      cases second with
      | nil => exact absurd shorter (Nat.not_succ_le_zero _)
      | cons side' second =>
          cases tree with
          | empty => exact absurd hasFirst (not_hasNode_empty _)
          | node value left right =>
              rw [hasNode_cons] at hasFirst hasSecond
              by_cases same : side = side'
              · subst same
                have unforkedSide :
                    ((node value left right).child side).IsUnforked :=
                  fun address isFork =>
                    unforked (side :: address) (isFork_cons.mpr isFork)
                exact List.cons_prefix_cons.mpr
                  ⟨rfl,
                    induction unforkedSide hasFirst hasSecond
                      (Nat.le_of_succ_le_succ shorter)⟩
              · refine absurd (isFork_nil.mpr ?_) (unforked [])
                cases side <;> cases side'
                · exact absurd rfl same
                · exact ⟨hasFirst.ne_empty, hasSecond.ne_empty⟩
                · exact ⟨hasSecond.ne_empty, hasFirst.ne_empty⟩
                · exact absurd rfl same

/--
All nodes of an unforked side of the root lie on the way to the deepest one.
-/
theorem prefix_of_deepest
    {value : α} {left right : Tree α} {side : Side}
    {deepest address : Address}
    (unforked : ((node value left right).child side).IsUnforked)
    (hasDeepest : (node value left right).HasNode deepest)
    (length :
      (deepest.length : Int) = 1 + ((node value left right).child side).depth)
    (head : ∀ first ∈ deepest.head?, first = side)
    (hasNode : (node value left right).HasNode (side :: address)) :
    side :: address <+: deepest := by
  rw [hasNode_cons] at hasNode
  have bounded := length_le_depth hasNode
  cases deepest with
  | nil =>
      rw [List.length_nil] at length
      omega
  | cons first deepest =>
      have isSide : first = side := head first rfl
      subst isSide
      rw [hasNode_cons] at hasDeepest
      rw [List.length_cons] at length
      exact List.cons_prefix_cons.mpr
        ⟨rfl, unforked.prefix_of_length_le hasNode hasDeepest (by omega)⟩

/--
If both sides of the root are unforked, the tree is the path between
their deepest nodes.
-/
theorem isPath_of_isUnforked
    (value : α) {left right : Tree α} (leftUnforked : left.IsUnforked)
    (rightUnforked : right.IsUnforked) :
    (node value left right).IsPath := by
  rcases exists_hasNode_below value left right .left exists_hasNode_depth with
    ⟨first, hasFirst, firstLength, firstSide⟩
  rcases exists_hasNode_below value left right .right exists_hasNode_depth with
    ⟨second, hasSecond, secondLength, secondSide⟩
  refine ⟨first, second, hasFirst, hasSecond, ?_⟩
  intro address hasNode
  have nothingShared : Address.shared first second = [] := by
    cases first with
    | nil => rfl
    | cons side first =>
        cases second with
        | nil => rfl
        | cons side' second =>
            have isLeft := firstSide side rfl
            have isRight := secondSide side' rfl
            subst isLeft isRight
            rfl
  rw [Address.isBetween_iff, nothingShared]
  refine ⟨List.nil_prefix, ?_⟩
  cases address with
  | nil => exact Or.inl List.nil_prefix
  | cons side address =>
      cases side with
      | left =>
          exact Or.inl
            (prefix_of_deepest leftUnforked hasFirst firstLength firstSide
              hasNode)
      | right =>
          exact Or.inr
            (prefix_of_deepest rightUnforked hasSecond secondLength secondSide
              hasNode)

theorem not_prefix_right_of_left
    {address last : Address}
    (onLeft : address ++ [.left] <+: last) :
    ¬ address ++ [.right] <+: last := by
  intro onRight
  have onLeft' := List.prefix_of_prefix_length_le onLeft onRight (by simp)
  have same := onLeft'.eq_of_length (by simp)
  simp at same

/--
A path turns nowhere but at the root, and with a child on either branch of the
way a node would be the turning point.  So no other node has two children.
-/
theorem IsPath.no_fork_below
    {tree : Tree α} (isPath : tree.IsPath) {address : Address}
    (below : address ≠ []) :
    ¬ tree.IsFork address := by
  rintro ⟨value, left, right, found, hasLeft, hasRight⟩
  rcases isPath with ⟨first, second, hasFirst, hasSecond, between⟩
  have onWay :
      ∀ {address}, tree.HasNode address →
        Address.shared first second <+: address ∧
          (address <+: first ∨ address <+: second) :=
    fun hasNode => Address.isBetween_iff.mp (between _ hasNode)
  have hasRoot : tree.HasNode [] := hasNode_nil_iff.mpr hasFirst.ne_empty
  have nothingShared := List.prefix_nil.mp (onWay hasRoot).1
  have isRoot :
      ∀ {side side'}, address ++ [side] <+: first →
        address ++ [side'] <+: second → address = [] := by
    intro side side' onFirst onSecond
    have onBoth := Address.prefix_shared_iff.mpr
      ⟨(List.prefix_append _ _).trans onFirst,
        (List.prefix_append _ _).trans onSecond⟩
    rw [nothingShared] at onBoth
    exact List.prefix_nil.mp onBoth
  have leftChild := (onWay ((hasNode_concat_iff .left found).mpr hasLeft)).2
  have rightChild := (onWay ((hasNode_concat_iff .right found).mpr hasRight)).2
  rcases leftChild with leftFirst | leftSecond
  · rcases rightChild with rightFirst | rightSecond
    · exact not_prefix_right_of_left leftFirst rightFirst
    · exact below (isRoot leftFirst rightSecond)
  · rcases rightChild with rightFirst | rightSecond
    · exact below (isRoot rightFirst leftSecond)
    · exact not_prefix_right_of_left leftSecond rightSecond

/-! ## The diameter between height and size -/

/--
The diameter of a nonempty tree, in whichever of the two ways it is found, is at
least the height and at most twice the height and the number of edges.  It is
the number of edges exactly if no node below the root has two children, which is
to say that the tree is a path.
-/
theorem height_le_diameter_le_min {tree : Tree α} (nonempty : tree ≠ empty) :
    tree.height ≤ tree.diameter ∧
      tree.diameter ≤ min (2 * tree.height) (tree.size - 1) ∧
      (tree.diameter = tree.size - 1 ↔
        ∀ address, address ≠ [] → ¬ tree.IsFork address) ∧
      ((∀ address, address ≠ [] → ¬ tree.IsFork address) ↔ tree.IsPath) ∧
      tree.frameDiameter = tree.diameter := by
  cases tree with
  | empty => exact absurd rfl nonempty
  | node value left right =>
      refine ⟨height_le_diameter _,
        le_min (diameter_le_two_mul_height _) (diameter_le_size_sub_one _), ?_,
        ?_, Walk.frameDiameter_eq _⟩
      · exact diameter_node_eq_size_iff.trans no_fork_below_iff.symm
      · constructor
        · intro noFork
          have ⟨leftUnforked, rightUnforked⟩ := no_fork_below_iff.mp noFork
          exact isPath_of_isUnforked value leftUnforked rightUnforked
        · exact fun isPath address below => isPath.no_fork_below below

/--
The node below the root of the forked tree keeps the diameter below the
number of edges.
-/
theorem height_le_diameter_le_min_forked :
    forked ≠ empty ∧ forked.IsFork [.left] ∧ 4 ≤ forked.diameter ∧
      forked.diameter ≤ min (2 * 4) (8 - 1) ∧ forked.diameter ≠ 8 - 1 ∧
      ¬ forked.IsPath ∧ forked.frameDiameter = 6 := by
  have nonempty : forked ≠ empty := nofun
  have isFork : forked.IsFork [.left] :=
    ⟨2, node 3 (node 5 (leaf 7) empty) empty,
      node 4 empty (node 6 empty (leaf 8)), rfl, nofun, nofun⟩
  rcases height_le_diameter_le_min nonempty with
    ⟨lower, upper, reached, isPath, sameDiameter⟩
  have notPath : ¬ ∀ address, address ≠ [] → ¬ forked.IsFork address :=
    fun noFork => noFork [.left] (by simp) isFork
  exact ⟨nonempty, isFork, lower, upper, mt reached.mp notPath,
    mt isPath.mpr notPath, sameDiameter⟩

end Longest.Tree
