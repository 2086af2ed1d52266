import Longest.Tree.Basic

/-!
# Diameter by recursion

The longest path that has a given node as its highest one runs through the
deepest nodes on both sides, so the heights of all subtrees suffice.  Heights
are counted in edges, with -1 for the absent subtree; then a node over two
absent subtrees has height 0 and is the top of a path of length 0 without any
case distinction.
-/

namespace Longest.Tree

variable {α : Type}

/--
The length of the longest path with this node on top, from the heights
of its two sides.
-/
def apex (left right : Int) : Int :=
  2 + left + right

/-- The height of a node from the heights of its two sides. -/
def rise (left right : Int) : Int :=
  1 + max left right

/--
Visits a tree from the left and from below.  The results are its height and the
greatest of the given diameter and the lengths of the paths seen.
-/
def visit : Tree α → Int → Int × Int
  | empty, diameter => (-1, diameter)
  | node _ left right, diameter =>
    let (leftHeight, diameter) := left.visit diameter
    let (rightHeight, diameter) := right.visit diameter
    (rise leftHeight rightHeight, max diameter (apex leftHeight rightHeight))

/--
The number of edges on a longest path between two nodes; 0 for the empty tree.
-/
def diameter (tree : Tree α) : Nat :=
  (tree.visit 0).2.toNat

end Longest.Tree
