import Longest.Proofs.Tree.Address
import Longest.Tree.Traversal

/-!
# Mirroring flips addresses

At every address of a mirrored tree, also where nothing is, stands the mirror
image of what stands at the flipped address of the tree.  A tree is given by the
values at its addresses, and flipping an address twice changes nothing, so
mirroring twice changes nothing either.  From left to right the values of a
mirrored tree come in reverse order.
-/

namespace Longest

@[simp]
theorem Address.flip_flip (address : Address) :
    address.flip.flip = address := by
  have twice : Side.flip ∘ Side.flip = id := funext Side.flip_flip
  rw [flip, flip, List.map_map, twice, List.map_id]

namespace Tree

variable {α : Type}

/-! ## Values at addresses -/

/-- The value of the node at an address; `none` if no node is there. -/
def valueAt? (tree : Tree α) (address : Address) : Option α :=
  (tree.subtree? address).bind value?

theorem valueAt?_cons
    (value : α) (left right : Tree α) (side : Side) (address : Address) :
    (node value left right).valueAt? (side :: address) =
      ((node value left right).child side).valueAt? address := by
  cases side <;> rfl

/-- A tree is determined by its values and their addresses. -/
theorem eq_of_valueAt?_eq
    {first second : Tree α}
    (same : ∀ address, first.valueAt? address = second.valueAt? address) :
    first = second := by
  induction first generalizing second with
  | empty =>
      cases second with
      | empty => rfl
      | node value left right => cases same []
  | node value left right leftIH rightIH =>
      cases second with
      | empty => cases same []
      | node value' left' right' =>
          have sameValue : value = value' := Option.some.inj (same [])
          have sameBelow : ∀ side address,
              ((node value left right).child side).valueAt? address =
                ((node value' left' right').child side).valueAt? address := by
            intro side address
            rw [← valueAt?_cons, ← valueAt?_cons]
            exact same (side :: address)
          have sameLeft : left = left' := leftIH (sameBelow .left)
          have sameRight : right = right' := rightIH (sameBelow .right)
          rw [sameValue, sameLeft, sameRight]

/-! ## Mirror images -/

/-- On the left of a mirrored node hangs the right subtree, itself mirrored. -/
theorem subtree?_mirror (tree : Tree α) (address : Address) :
    tree.mirror.subtree? address = (tree.subtree? address.flip).map mirror := by
  induction address generalizing tree with
  | nil => rfl
  | cons side address induction =>
      cases tree with
      | empty => rfl
      | node value left right =>
          cases side with
          | left => exact induction right
          | right => exact induction left

theorem value?_mirror (tree : Tree α) : tree.mirror.value? = tree.value? := by
  cases tree <;> rfl

theorem valueAt?_mirror (tree : Tree α) (address : Address) :
    tree.mirror.valueAt? address = tree.valueAt? address.flip := by
  rw [valueAt?, subtree?_mirror, Option.bind_map, valueAt?]
  exact Option.bind_congr fun subtree _ => value?_mirror subtree

theorem mirror_mirror (tree : Tree α) : tree.mirror.mirror = tree := by
  apply eq_of_valueAt?_eq
  intro address
  rw [valueAt?_mirror, valueAt?_mirror, Address.flip_flip]

theorem inOrder_mirror (tree : Tree α) :
    tree.mirror.inOrder = tree.inOrder.reverse := by
  induction tree with
  | empty => rfl
  | node value left right leftIH rightIH =>
      rw [mirror, inOrder, inOrder, leftIH, rightIH, List.reverse_append,
        List.reverse_cons, List.append_assoc, List.singleton_append]

/--
The subtree at an address of the mirrored tree is the mirror image of the one at
the flipped address, and either of them is absent if the other one is.
Mirroring is its own inverse, and turns the values from left to right round.
-/
theorem mirror_flips_addresses (tree : Tree α) :
    (∀ address,
        tree.mirror.subtree? address =
          (tree.subtree? address.flip).map mirror) ∧
      tree.mirror.mirror = tree ∧ tree.mirror.inOrder = tree.inOrder.reverse :=
  ⟨subtree?_mirror tree, mirror_mirror tree, inOrder_mirror tree⟩

end Tree

end Longest
