/-!
# Binary trees

A tree is empty or a node with a value and two subtrees, each of which may be
empty.  This module holds the type, its measures, mirroring, and the two
simplest ways to build a tree.
-/

namespace Longest

/-- One of the two sides on which a subtree hangs. -/
inductive Side where
  | left
  | right
  deriving DecidableEq, Repr

/-- The other side. -/
def Side.flip : Side → Side
  | .left => .right
  | .right => .left

@[simp]
theorem Side.flip_flip (side : Side) : side.flip.flip = side := by
  cases side <;> rfl

/-- A binary tree with values at its nodes. -/
inductive Tree (α : Type) where
  | empty
  | node (value : α) (left right : Tree α)
  deriving DecidableEq, Repr

namespace Tree

variable {α : Type}

instance : Inhabited (Tree α) :=
  ⟨empty⟩

/-- Equality of shape, with values compared by their own equality. -/
def sameAs [BEq α] : Tree α → Tree α → Bool
  | empty, empty => true
  | node value left right, node value' left' right' =>
    value == value' && left.sameAs left' && right.sameAs right'
  | _, _ => false

instance [BEq α] : BEq (Tree α) :=
  ⟨sameAs⟩

/-- A node without subtrees. -/
def leaf (value : α) : Tree α :=
  node value empty empty

/-- There is no node. -/
def isEmpty : Tree α → Bool
  | empty => true
  | node _ _ _ => false

/-- The tree is a single node. -/
def isLeaf : Tree α → Bool
  | node _ left right => left.isEmpty && right.isEmpty
  | empty => false

/-- The value at the root. -/
def value? : Tree α → Option α
  | empty => none
  | node value _ _ => some value

/-- The subtree on one side of the root. -/
def child : Side → Tree α → Tree α
  | _, empty => empty
  | .left, node _ left _ => left
  | .right, node _ _ right => right

/--
The number of edges on a longest way down from the root; 0 for a leaf
and the empty tree.
-/
def height : Tree α → Nat
  | empty => 0
  | node _ left right =>
    max (if left.isEmpty then 0 else 1 + left.height)
      (if right.isEmpty then 0 else 1 + right.height)

/-- The number of nodes. -/
def size : Tree α → Nat
  | empty => 0
  | node _ left right => 1 + left.size + right.size

/-- The number of nodes of several trees. -/
def forestSize : List (Tree α) → Nat
  | [] => 0
  | tree :: rest => tree.size + forestSize rest

/-- The tree with the two sides exchanged at every node. -/
def mirror : Tree α → Tree α
  | empty => empty
  | node value left right => node value right.mirror left.mirror

/-- The tree with another value at the root. -/
def relabel (value : α) : Tree α → Tree α
  | empty => empty
  | node _ left right => node value left right

/-- A node with one subtree, which hangs on the given side. -/
def hang (side : Side) (value : α) (below : Tree α) : Tree α :=
  match side with
  | .left => node value below empty
  | .right => node value empty below

/--
The tree that only grows along one side, with the first value at the root.
-/
def chain (side : Side) (values : List α) : Tree α :=
  values.foldr (hang side) empty

@[simp]
theorem isEmpty_eq_true_iff {tree : Tree α} :
    tree.isEmpty = true ↔ tree = empty := by
  cases tree <;> simp [isEmpty]

@[simp]
theorem size_eq_zero_iff {tree : Tree α} : tree.size = 0 ↔ tree = empty := by
  cases tree <;> simp [size, Nat.add_assoc]

@[simp]
theorem forestSize_append (first second : List (Tree α)) :
    forestSize (first ++ second) = forestSize first + forestSize second := by
  induction first with
  | nil => simp [forestSize]
  | cons tree rest ih =>
      simp only [List.cons_append, forestSize, ih, Nat.add_assoc]

end Tree

end Longest
