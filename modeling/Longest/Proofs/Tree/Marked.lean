import Longest.Proofs.Tree.Reflection

/-!
# Marked trees

Two nodes of a tree can hold the same value, and then nothing but their
addresses tells them apart.  In a marked tree every value comes with the address
of its node, so a node can be recognised wherever it is moved.  Without the
marks it is the same tree.
-/

namespace Longest.Tree

variable {α β : Type}

/-! ## Changing values -/

/-- Changes every value, with a view to the address of its node. -/
def mapAt (change : Address → α → β) : Tree α → Tree β
  | empty => empty
  | node value left right =>
    node (change [] value) (left.mapAt fun address => change (.left :: address))
      (right.mapAt fun address => change (.right :: address))

/-- Changes every value. -/
def map (change : α → β) (tree : Tree α) : Tree β :=
  tree.mapAt fun _ => change

theorem map_node (change : α → β) (value : α) (left right : Tree α) :
    (node value left right).map change =
      node (change value) (left.map change) (right.map change) :=
  rfl

theorem size_mapAt (change : Address → α → β) (tree : Tree α) :
    (tree.mapAt change).size = tree.size := by
  induction tree generalizing change with
  | empty => rfl
  | node value left right leftIH rightIH =>
      rw [mapAt, size, size, leftIH, rightIH]

theorem valueAt?_mapAt
    (change : Address → α → β) (tree : Tree α) (address : Address) :
    (tree.mapAt change).valueAt? address =
      (tree.valueAt? address).map (change address) := by
  induction address generalizing tree change with
  | nil => cases tree <;> rfl
  | cons side address induction =>
      cases tree with
      | empty => rfl
      | node value left right =>
          cases side with
          | left => exact induction _ left
          | right => exact induction _ right

/-! ## Nodes and values -/

theorem valueAt?_of_subtree?
    {tree : Tree α} {address : Address} {value : α} {left right : Tree α}
    (found : tree.subtree? address = some (node value left right)) :
    tree.valueAt? address = some value := by
  rw [valueAt?, found]
  rfl

theorem hasNode_iff_exists_valueAt? {tree : Tree α} {address : Address} :
    tree.HasNode address ↔ ∃ value, tree.valueAt? address = some value := by
  constructor
  · rintro ⟨value, left, right, found⟩
    exact ⟨value, valueAt?_of_subtree? found⟩
  · rintro ⟨value, found⟩
    rcases Option.bind_eq_some_iff.mp found with ⟨subtree, foundSubtree, isRoot⟩
    cases subtree with
    | empty => cases isRoot
    | node root left right => exact ⟨root, left, right, foundSubtree⟩

/-- No value stands at two addresses. -/
def IsDistinct (tree : Tree α) : Prop :=
  ∀ first second value, tree.valueAt? first = some value →
    tree.valueAt? second = some value → first = second

theorem IsDistinct.child
    {value : α} {left right : Tree α}
    (distinct : (node value left right).IsDistinct)
    (side : Side) :
    ((node value left right).child side).IsDistinct := by
  intro first second entry found found'
  rw [← valueAt?_cons] at found found'
  exact List.tail_eq_of_cons_eq (distinct _ _ entry found found')

/-! ## Marks -/

/-- The tree with the address of each node beside its value. -/
def marked (tree : Tree α) : Tree (Address × α) :=
  tree.mapAt Prod.mk

theorem size_marked (tree : Tree α) : tree.marked.size = tree.size :=
  size_mapAt Prod.mk tree

theorem map_snd_marked (tree : Tree α) : tree.marked.map Prod.snd = tree := by
  apply eq_of_valueAt?_eq
  intro address
  rw [map, valueAt?_mapAt, marked, valueAt?_mapAt, Option.map_map]
  exact Option.map_id_apply

theorem hasNode_marked_iff {tree : Tree α} {address : Address} :
    tree.marked.HasNode address ↔ tree.HasNode address := by
  simp only [hasNode_iff_exists_valueAt?, marked, valueAt?_mapAt,
    Option.map_eq_some_iff]
  constructor
  · rintro ⟨_, value, found, _⟩
    exact ⟨value, found⟩
  · rintro ⟨value, found⟩
    exact ⟨_, value, found, rfl⟩

/-- The mark of a node is its address. -/
theorem fst_of_valueAt?_marked
    {tree : Tree α} {address : Address} {entry : Address × α}
    (found : tree.marked.valueAt? address = some entry) :
    entry.1 = address := by
  rw [marked, valueAt?_mapAt] at found
  rcases Option.map_eq_some_iff.mp found with ⟨value, _, rfl⟩
  rfl

theorem isDistinct_marked (tree : Tree α) : tree.marked.IsDistinct := by
  intro first second entry found found'
  exact (fst_of_valueAt?_marked found).symm.trans
    (fst_of_valueAt?_marked found')

end Longest.Tree
