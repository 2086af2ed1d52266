import Longest.Tree.Basic

/-!
# Level order of a tree

The nodes of a tree breadth first, and the entries of its level order: the
root's value, then for every node, breadth first, one entry for each of its
children, without the absent ones at the end.
-/

namespace Longest.Tree

variable {α : Type}

/--
The nodes of the trees that stand in line, each given by its subtree; a tree's
children queue up behind all others.
-/
def breadthFirstFrom : List (Tree α) → List (Tree α)
  | [] => []
  | empty :: line => breadthFirstFrom line
  | node value left right :: line =>
    node value left right :: breadthFirstFrom (line ++ [left, right])
termination_by line => 2 * forestSize line + line.length
decreasing_by
  · simp only [forestSize, size, List.length_cons]
    omega
  · simp only [forestSize, forestSize_append, size, List.length_append,
      List.length_cons, List.length_nil]
    omega

/-- The nodes breadth first, each given by its subtree. -/
def breadthFirst (tree : Tree α) : List (Tree α) :=
  breadthFirstFrom [tree]

/-- The entries without those at the end that are absent. -/
def dropAbsentEnd (entries : List (Option α)) : List (Option α) :=
  (entries.reverse.dropWhile Option.isNone).reverse

/-- The two entries for the children of a tree. -/
def childEntries (tree : Tree α) : List (Option α) :=
  [(tree.child .left).value?, (tree.child .right).value?]

/-- The level order of a tree. -/
def entries (tree : Tree α) : List (Option α) :=
  dropAbsentEnd (tree.value? :: tree.breadthFirst.flatMap childEntries)

end Longest.Tree
