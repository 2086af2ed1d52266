import Longest.Tree.Address
import Mathlib.Tactic.SplitIfs

/-!
# Addresses and the nodes at them

What two addresses share is the longest address that both extend, and their
distance is counted over it.  The addresses between two others, which are
passed on the way from one to the other, are those that lead from what is
shared to one of them.

The nodes of a tree are found at addresses from the root on: with a node
its parent is in the tree, and what is found behind an address is found in
the subtree there.
-/

namespace Longest

namespace Address

/-! ## What is shared -/

/-- The shared address is the longest one that both addresses extend. -/
theorem prefix_shared_iff {common first second : Address} :
    common <+: shared first second ↔ common <+: first ∧ common <+: second := by
  induction common generalizing first second with
  | nil => simp
  | cons side common induction =>
      cases first with
      | nil => simp [shared]
      | cons firstSide first =>
          cases second with
          | nil => simp [shared]
          | cons secondSide second =>
              rw [shared]
              split_ifs with same
              · subst same
                simp only [List.cons_prefix_cons, induction]
                exact and_and_left
              · simp only [List.prefix_nil, List.cons_prefix_cons, reduceCtorEq,
                  false_iff]
                rintro ⟨⟨rfl, _⟩, ⟨rfl, _⟩⟩
                exact same rfl

theorem shared_prefix_both (first second : Address) :
    shared first second <+: first ∧ shared first second <+: second :=
  prefix_shared_iff.mp (List.prefix_refl _)

theorem length_shared_le (first second : Address) :
    (shared first second).length ≤ first.length ∧
      (shared first second).length ≤ second.length :=
  ⟨(shared_prefix_both first second).1.length_le,
    (shared_prefix_both first second).2.length_le⟩

theorem shared_comm (first second : Address) :
    shared first second = shared second first := by
  have half :
      ∀ first second : Address, shared first second <+: shared second first :=
    fun first second =>
      prefix_shared_iff.mpr (shared_prefix_both first second).symm
  exact (half first second).eq_of_length_le (half second first).length_le

/-! ## Distances -/

@[simp]
theorem distance_nil_left (second : Address) :
    distance [] second = second.length := by
  simp [distance, shared]

@[simp]
theorem distance_nil_right (first : Address) :
    distance first [] = first.length := by
  simp [distance, shared]

@[simp]
theorem distance_cons_self (side : Side) (first second : Address) :
    distance (side :: first) (side :: second) = distance first second := by
  have shorter := length_shared_le first second
  simp only [distance, shared, if_true, List.length_cons]
  omega

theorem distance_cons_of_ne
    {firstSide secondSide : Side} (different : firstSide ≠ secondSide)
    (first second : Address) :
    distance (firstSide :: first) (secondSide :: second) =
      (firstSide :: first).length + (secondSide :: second).length := by
  simp [distance, shared, different]

/-! ## Betweenness -/

/--
On the way from the first address to the second one the third one is passed.
-/
def IsBetween (first second address : Address) : Prop :=
  distance first address + distance address second = distance first second

section Between

variable {first second address : Address}

theorem isBetween_iff_length :
    IsBetween first second address ↔
      address.length + (shared first second).length =
        (shared first address).length + (shared address second).length := by
  have whole := length_shared_le first second
  have fromFirst := length_shared_le first address
  have toSecond := length_shared_le address second
  simp only [IsBetween, distance]
  omega

theorem isBetween_comm :
    IsBetween first second address ↔ IsBetween second first address := by
  rw [isBetween_iff_length, isBetween_iff_length, shared_comm second first,
    shared_comm second address, shared_comm address first,
    Nat.add_comm (shared first address).length]

/--
What is shared with the first address is the turning point if it is
the shorter part.
-/
theorem IsBetween.prefix_of_shorter
    (between : IsBetween first second address)
    (shorter : shared first address <+: shared address second) :
    shared first second <+: address ∧ address <+: second := by
  have ⟨onFirst, onAddress⟩ := shared_prefix_both first address
  have ⟨onAddress', onSecond⟩ := shared_prefix_both address second
  have common : shared first address <+: shared first second :=
    prefix_shared_iff.mpr ⟨onFirst, shorter.trans onSecond⟩
  have sum := isBetween_iff_length.mp between
  have bounded := common.length_le
  have bounded' := onAddress'.length_le
  have whole : shared address second = address :=
    onAddress'.eq_of_length_le (by omega)
  have same : shared first address = shared first second :=
    common.eq_of_length_le (by omega)
  exact ⟨same ▸ onAddress, whole ▸ onSecond⟩

theorem isBetween_of_prefix_first
    (behind : shared first second <+: address) (onFirst : address <+: first) :
    IsBetween first second address := by
  have ⟨onAddress, onSecond⟩ := shared_prefix_both address second
  have fromFirst : address <+: shared first address :=
    prefix_shared_iff.mpr ⟨onFirst, List.prefix_refl address⟩
  have toSecond : shared first second <+: shared address second :=
    prefix_shared_iff.mpr ⟨behind, (shared_prefix_both first second).2⟩
  have toSecond' : shared address second <+: shared first second :=
    prefix_shared_iff.mpr ⟨onAddress.trans onFirst, onSecond⟩
  have sameFirst : (shared first address).length = address.length :=
    Nat.le_antisymm (length_shared_le first address).2 fromFirst.length_le
  have sameSecond :
      (shared address second).length = (shared first second).length :=
    Nat.le_antisymm toSecond'.length_le toSecond.length_le
  rw [isBetween_iff_length, sameFirst, sameSecond]

/--
The addresses between two others lead from what these share to one of
them.  Both parts of the way begin like such an address, so one of them
begins like the other.
-/
theorem isBetween_iff :
    IsBetween first second address ↔
      shared first second <+: address ∧
        (address <+: first ∨ address <+: second) := by
  constructor
  · intro between
    have fromFirst := (shared_prefix_both first address).2
    have toSecond := (shared_prefix_both address second).1
    rcases List.prefix_or_prefix_of_prefix fromFirst toSecond with
      shorter | shorter
    · have ⟨behind, onSecond⟩ := between.prefix_of_shorter shorter
      exact ⟨behind, Or.inr onSecond⟩
    · rw [shared_comm first address, shared_comm address second] at shorter
      have ⟨behind, onFirst⟩ :=
        (isBetween_comm.mp between).prefix_of_shorter shorter
      exact ⟨shared_comm first second ▸ behind, Or.inl onFirst⟩
  · rintro ⟨behind, onFirst | onSecond⟩
    · exact isBetween_of_prefix_first behind onFirst
    · rw [shared_comm] at behind
      exact isBetween_comm.mp (isBetween_of_prefix_first behind onSecond)

end Between

end Address

namespace Tree

variable {α : Type} {tree subtree : Tree α} {address : Address}

/-! ## Subtrees behind an address -/

theorem subtree?_append (tree : Tree α) (first second : Address) :
    tree.subtree? (first ++ second) =
      (tree.subtree? first).bind (subtree? · second) := by
  induction first generalizing tree with
  | nil => simp [subtree?]
  | cons side first induction =>
      cases tree with
      | empty => rfl
      | node value left right =>
          cases side with
          | left => exact induction left
          | right => exact induction right

theorem subtree?_concat
    {value : α} {left right : Tree α} (side : Side)
    (found : tree.subtree? address = some (node value left right)) :
    tree.subtree? (address ++ [side]) =
      some ((node value left right).child side) := by
  rw [subtree?_append, found]
  cases side <;> rfl

theorem exists_of_subtree?_concat
    {side : Side} (found : tree.subtree? (address ++ [side]) = some subtree) :
    ∃ value left right, tree.subtree? address = some (node value left right) ∧
      (node value left right).child side = subtree := by
  rw [subtree?_append] at found
  rcases Option.bind_eq_some_iff.mp found with ⟨above, foundAbove, below⟩
  cases above with
  | empty => cases below
  | node value left right =>
      refine ⟨value, left, right, foundAbove, ?_⟩
      cases side <;> exact Option.some.inj below

/--
What is not greater for the sides of a node is not greater for any subtree.
-/
theorem measure_le_of_subtree?
    {measure : Tree α → Nat}
    (child_le :
      ∀ value left right side,
        measure ((node value left right).child side) ≤
          measure (node value left right))
    (found : tree.subtree? address = some subtree) :
    measure subtree ≤ measure tree := by
  induction address generalizing tree with
  | nil =>
      cases found
      exact Nat.le_refl _
  | cons side address induction =>
      cases tree with
      | empty => cases found
      | node value left right =>
          apply Nat.le_trans _ (child_le value left right side)
          cases side with
          | left => exact induction found
          | right => exact induction found

/-! ## Nodes -/

theorem not_hasNode_empty (address : Address) :
    ¬ (empty : Tree α).HasNode address := by
  rintro ⟨value, left, right, found⟩
  cases address <;> simp [subtree?] at found

theorem HasNode.ne_empty (hasNode : tree.HasNode address) : tree ≠ empty := by
  rintro rfl
  exact not_hasNode_empty address hasNode

theorem hasNode_nil (value : α) (left right : Tree α) :
    (node value left right).HasNode [] :=
  ⟨value, left, right, rfl⟩

theorem hasNode_nil_iff : tree.HasNode [] ↔ tree ≠ empty := by
  cases tree with
  | empty => exact iff_of_false (not_hasNode_empty []) (not_not_intro rfl)
  | node value left right =>
      exact iff_of_true (hasNode_nil value left right) nofun

@[simp]
theorem hasNode_cons
    (value : α) (left right : Tree α) (side : Side) (address : Address) :
    (node value left right).HasNode (side :: address) ↔
      ((node value left right).child side).HasNode address := by
  cases side <;> rfl

theorem HasNode.cons
    {value : α} {left right : Tree α} {side : Side} {address : Address}
    (hasNode : ((node value left right).child side).HasNode address) :
    (node value left right).HasNode (side :: address) :=
  (hasNode_cons value left right side address).mpr hasNode

theorem hasNode_concat_iff
    {value : α} {left right : Tree α} (side : Side)
    (found : tree.subtree? address = some (node value left right)) :
    tree.HasNode (address ++ [side]) ↔
      (node value left right).child side ≠ empty := by
  rw [← hasNode_nil_iff]
  simp only [HasNode, subtree?_concat side found, subtree?]

theorem HasNode.of_concat
    {side : Side} (hasNode : tree.HasNode (address ++ [side])) :
    tree.HasNode address := by
  rcases hasNode with ⟨_, _, _, found⟩
  rcases exists_of_subtree?_concat found with
    ⟨value, left, right, foundAbove, _⟩
  exact ⟨value, left, right, foundAbove⟩

end Tree

end Longest
