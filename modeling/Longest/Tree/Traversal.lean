import Longest.Tree.Basic

/-!
# Orders of traversal

The values and subtrees of a tree as lists: between its sides, before them, and
level by level.  `preorder` keeps an entry for every absent subtree, which makes
it a complete description: `ofPreorder?` reads the tree back.
-/

namespace Longest.Tree

variable {α : Type}

/-- The values from left to right. -/
def inOrder : Tree α → List α
  | empty => []
  | node value left right => left.inOrder ++ value :: right.inOrder

/-- Puts the preorder entries of a tree in front of others. -/
def preorderBefore (rest : List (Option α)) : Tree α → List (Option α)
  | empty => none :: rest
  | node value left right =>
    some value :: left.preorderBefore (right.preorderBefore rest)

/-- Node, left side, right side, with `none` for every absent subtree. -/
def preorder (tree : Tree α) : List (Option α) :=
  tree.preorderBefore []

/--
Puts a tree in front of those read already: an absent one, or one whose two
subtrees are the first two of them.
-/
def regrow (entry : Option α) (grown : List (Tree α)) :
    Option (List (Tree α)) :=
  match entry, grown with
  | none, grown => some (empty :: grown)
  | some value, left :: right :: grown => some (node value left right :: grown)
  | some _, _ => none

/-- The tree with the given preorder; `none` if there is no such tree. -/
def ofPreorder? (entries : List (Option α)) : Option (Tree α) :=
  match
    entries.foldr (fun entry grown => grown.bind (regrow entry)) (some [])
  with
  | some [tree] => some tree
  | _ => none

/-- Puts the nonempty subtrees, the tree itself first, in front of others. -/
def subtreesBefore (rest : List (Tree α)) : Tree α → List (Tree α)
  | empty => rest
  | node value left right =>
    node value left right :: left.subtreesBefore (right.subtreesBefore rest)

/-- All nonempty subtrees in preorder of their roots. -/
def subtrees (tree : Tree α) : List (Tree α) :=
  tree.subtreesBefore []

theorem preorderBefore_eq (rest : List (Option α)) (tree : Tree α) :
    tree.preorderBefore rest = tree.preorder ++ rest := by
  induction tree generalizing rest with
  | empty => rfl
  | node value left right leftIH rightIH =>
    simp only [preorder, preorderBefore] at *
    rw [leftIH (right.preorderBefore rest), leftIH (right.preorderBefore []),
      rightIH rest]
    simp

@[simp]
theorem preorder_node (value : α) (left right : Tree α) :
    (node value left right).preorder =
      some value :: (left.preorder ++ right.preorder) := by
  rw [preorder, preorderBefore, preorderBefore_eq]
  rfl

theorem regrow_preorder (tree : Tree α) (grown : List (Tree α)) :
    tree.preorder.foldr (fun entry grown => grown.bind (regrow entry))
        (some grown) =
      some (tree :: grown) := by
  induction tree generalizing grown with
  | empty => rfl
  | node value left right leftIH rightIH =>
      simp [List.foldr_append, leftIH, rightIH, regrow]

/-- A tree is read back from its preorder. -/
theorem ofPreorder?_preorder (tree : Tree α) :
    ofPreorder? tree.preorder = some tree := by
  simp [ofPreorder?, regrow_preorder tree []]

end Longest.Tree
