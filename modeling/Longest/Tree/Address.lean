import Longest.Tree.Basic

/-!
# Addresses in a tree

An address is the list of sides taken on the way down from the root.  It leads
to a place that holds a subtree, possibly the empty one, if there is a node at
every step before; the nodes of a tree are the places with a nonempty subtree.
The distance of two addresses is the number of edges on the way from one over
their last common node to the other.
-/

namespace Longest

/-- The sides to take on the way down from the root. -/
abbrev Address :=
  List Side

namespace Address

/-- The address of the last place that two addresses have in common. -/
def shared : Address → Address → Address
  | first :: rest, second :: rest' =>
    if first = second then first :: shared rest rest' else []
  | _, _ => []

/-- The number of edges between two places. -/
def distance (first second : Address) : Nat :=
  first.length + second.length - 2 * (shared first second).length

/-- The address with every side exchanged. -/
def flip (address : Address) : Address :=
  address.map Side.flip

end Address

namespace Tree

variable {α : Type}

/-- The subtree at an address; `none` if a node on the way is absent. -/
def subtree? (tree : Tree α) (address : Address) : Option (Tree α) :=
  match address, tree with
  | [], tree => some tree
  | _ :: _, empty => none
  | .left :: rest, node _ left _ => left.subtree? rest
  | .right :: rest, node _ _ right => right.subtree? rest
termination_by structural address

/-- Changes the subtree at an address; `none` if a node on the way is absent. -/
def update? (change : Tree α → Tree α) (tree : Tree α) (address : Address) :
    Option (Tree α) :=
  match address, tree with
  | [], tree => some (change tree)
  | _ :: _, empty => none
  | .left :: rest, node value left right =>
    (left.update? change rest).map fun left => node value left right
  | .right :: rest, node value left right =>
    (right.update? change rest).map fun right => node value left right
termination_by structural address

/-- The address is that of a node. -/
def HasNode (tree : Tree α) (address : Address) : Prop :=
  ∃ value left right, tree.subtree? address = some (node value left right)

/-- At the address of a change stands what was there, changed. -/
theorem subtree?_update?
    (change : Tree α → Tree α) (tree : Tree α) (address : Address) :
    (tree.update? change address).bind (subtree? · address) =
      (tree.subtree? address).map change := by
  induction address generalizing tree with
  | nil => simp [update?, subtree?]
  | cons side rest ih =>
    cases tree with
    | empty => rfl
    | node value left right =>
      cases side
      · simpa [update?, subtree?, Option.bind_map, Function.comp_def] using
          ih left
      · simpa [update?, subtree?, Option.bind_map, Function.comp_def] using
          ih right

end Tree

end Longest
