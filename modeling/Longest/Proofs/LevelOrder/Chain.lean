import Longest.Proofs.LevelOrder.RoundTrip
import Longest.Proofs.Tree.Bounds

/-!
# Chains in level order

Breadth first the nodes of a chain come in the order of the chain, and the
children of each of them are the next node, if there is one, and nothing on the
other side.  The level order of a chain therefore holds the values with one
absent entry between any two of them; only behind the root there is none if the
chain grows to the left.

The mirror image of a chain is the chain along the other side.  No node has two
children, so height and diameter are both the number of edges.
-/

namespace Longest

namespace Tree

variable {α : Type}

/-! ## Nodes with one subtree -/

theorem mirror_hang (side : Side) (value : α) (below : Tree α) :
    (hang side value below).mirror = hang side.flip value below.mirror := by
  cases side <;> rfl

theorem value?_hang (side : Side) (value : α) (below : Tree α) :
    (hang side value below).value? = some value := by
  cases side <;> rfl

theorem size_hang (side : Side) (value : α) (below : Tree α) :
    (hang side value below).size = below.size + 1 := by
  cases side <;> simp only [hang, size] <;> omega

theorem depth_hang (side : Side) (value : α) (below : Tree α) :
    (hang side value below).depth = below.depth + 1 := by
  have lower := neg_one_le_depth below
  have nothing : (empty : Tree α).depth = -1 := rfl
  cases side <;> simp only [hang, depth_node, rise, nothing] <;> omega

/-! ## Measures of chains -/

theorem chain_nil (side : Side) : chain side ([] : List α) = empty :=
  rfl

theorem chain_cons (side : Side) (first : α) (rest : List α) :
    chain side (first :: rest) = hang side first (chain side rest) :=
  rfl

theorem mirror_chain (side : Side) (values : List α) :
    (chain side values).mirror = chain side.flip values := by
  induction values with
  | nil => rfl
  | cons first rest induction =>
      rw [chain_cons, mirror_hang, induction, chain_cons]

theorem size_chain (side : Side) (values : List α) :
    (chain side values).size = values.length := by
  induction values with
  | nil => rfl
  | cons first rest induction =>
      rw [chain_cons, size_hang, induction, List.length_cons]

theorem depth_chain (side : Side) (values : List α) :
    (chain side values).depth = values.length - 1 := by
  induction values with
  | nil => rfl
  | cons first rest induction =>
      rw [chain_cons, depth_hang, induction, List.length_cons]
      omega

theorem height_chain (side : Side) (values : List α) :
    (chain side values).height = values.length - 1 := by
  rw [height_eq_toNat_depth, depth_chain]
  omega

/--
The diameter lies between the height and the number of edges, which
are the same here.
-/
theorem diameter_chain (side : Side) (values : List α) :
    (chain side values).diameter = values.length - 1 := by
  have lower := height_le_diameter (chain side values)
  have upper := diameter_le_size_sub_one (chain side values)
  rw [height_chain] at lower
  rw [size_chain] at upper
  exact Nat.le_antisymm upper lower

end Tree

namespace LevelOrder

open Longest.Tree

variable {α : Type}

/-! ## Chains breadth first -/

/-- Absent trees in the line do not matter. -/
theorem breadthFirstFrom_congr
    {line line' : List (Tree α)}
    (same : line.filter (!·.isEmpty) = line'.filter (!·.isEmpty)) :
    breadthFirstFrom line = breadthFirstFrom line' := by
  rw [breadthFirstFrom_eq_append line, breadthFirstFrom_eq_append line', same]

theorem breadthFirst_empty : (empty : Tree α).breadthFirst = [] := by
  rw [breadthFirst, breadthFirstFrom, breadthFirstFrom]

/--
The side without a node is passed over, whether it stands behind the next
node or before it.
-/
theorem breadthFirst_hang (side : Side) (value : α) (below : Tree α) :
    (hang side value below).breadthFirst =
      hang side value below :: below.breadthFirst := by
  cases side with
  | left =>
      have nextLine :
          breadthFirstFrom [below, empty] = breadthFirstFrom [below] :=
        breadthFirstFrom_congr (by cases below <;> rfl)
      rw [breadthFirst, hang, breadthFirstFrom, List.nil_append, nextLine,
        breadthFirst]
  | right =>
      have nextLine :
          breadthFirstFrom [empty, below] = breadthFirstFrom [below] := by
        rw [breadthFirstFrom]
      rw [breadthFirst, hang, breadthFirstFrom, List.nil_append, nextLine,
        breadthFirst]

/--
The entries for the children of a node of a chain, of which the next node
is the only one.
-/
def entryPair (side : Side) (entry : Option α) : List (Option α) :=
  match side with
  | .left => [entry, none]
  | .right => [none, entry]

theorem childEntries_hang (side : Side) (value : α) (below : Tree α) :
    childEntries (hang side value below) = entryPair side below.value? := by
  cases side <;> rfl

/-- Below the last node both children are absent. -/
theorem childEntries_chain (side : Side) (first : α) (rest : List α) :
    (chain side (first :: rest)).breadthFirst.flatMap childEntries =
      (rest.flatMap fun value => entryPair side (some value)) ++
        [none, none] := by
  induction rest generalizing first with
  | nil =>
      rw [chain_cons, chain_nil, breadthFirst_hang, breadthFirst_empty,
        List.flatMap_cons, childEntries_hang]
      cases side <;> rfl
  | cons second rest induction =>
      rw [chain_cons, breadthFirst_hang, List.flatMap_cons, induction,
        childEntries_hang, chain_cons, value?_hang, List.flatMap_cons,
        List.append_assoc]

/--
The level order of a chain is the first value and a pair of entries
for each other one.
-/
theorem entryAt_entries_chain
    (side : Side) (first : α) (rest : List α) (place : Nat) :
    entryAt (chain side (first :: rest)).entries place =
      entryAt
        (some first :: rest.flatMap fun value => entryPair side (some value))
        place := by
  have absent : ∀ entry ∈ [none, none], entry = (none : Option α) := by simp
  rw [Tree.entries, entryAt_dropAbsentEnd, childEntries_chain, chain_cons,
    value?_hang, ← List.cons_append, entryAt_append_of_absent absent]

/-! ## Values with gaps between them -/

theorem intersperse_none (first : α) (rest : List α) :
    ((first :: rest).map some).intersperse none =
      some first ::
        rest.flatMap fun value => entryPair .right (some value) := by
  induction rest generalizing first with
  | nil => rfl
  | cons second rest induction =>
      simp only [List.map_cons, List.intersperse_cons_cons] at induction ⊢
      rw [induction]
      rfl

theorem intersperse_none_concat (first : α) (rest : List α) :
    ((first :: rest).map some).intersperse none ++ [none] =
      (first :: rest).flatMap fun value => entryPair .left (some value) := by
  induction rest generalizing first with
  | nil => rfl
  | cons second rest induction =>
      simp only [List.map_cons, List.intersperse_cons_cons,
        List.cons_append] at induction ⊢
      rw [induction]
      rfl

/-- The pairs on the left end with an absent entry, which may be left out. -/
theorem entryAt_intersperse_none (values : List α) (place : Nat) :
    entryAt ((values.map some).intersperse none) place =
      entryAt (values.flatMap fun value => entryPair .left (some value))
        place := by
  cases values with
  | nil => rfl
  | cons first rest =>
      rw [← intersperse_none_concat]
      exact (entryAt_append_of_absent (by simp) place).symm

/--
The two chains of a nonempty list of values are the trees with these values in
level order and one absent entry between any two neighbours, of which the first
is left out if the chain grows to the left.  They are the mirror images of each
other, have one node for each value, and all their edges lie on one path down
from the root, which is a longest one for both ways to find the diameter.
-/
theorem chain_of_level_order (first : α) (rest : List α) :
    Tree.ofEntries? (((first :: rest).map some).intersperse none) =
        .ok (chain .right (first :: rest)) ∧
      Tree.ofEntries? (some first :: (rest.map some).intersperse none) =
        .ok (chain .left (first :: rest)) ∧
      (chain .right (first :: rest)).mirror = chain .left (first :: rest) ∧
      (chain .left (first :: rest)).mirror = chain .right (first :: rest) ∧
      ∀ side,
        (chain side (first :: rest)).height = rest.length ∧
          (chain side (first :: rest)).size = rest.length + 1 ∧
          (chain side (first :: rest)).diameter = rest.length ∧
          (chain side (first :: rest)).frameDiameter = rest.length := by
  refine ⟨?_, ?_, mirror_chain .right _, mirror_chain .left _, ?_⟩
  · rw [ofEntries?_eq_ok_iff_entryAt, intersperse_none]
    exact entryAt_entries_chain .right first rest
  · rw [ofEntries?_eq_ok_iff_entryAt]
    intro place
    rw [entryAt_entries_chain]
    cases place with
    | zero => rfl
    | succ place => exact (entryAt_intersperse_none rest place).symm
  · intro side
    have diameter := diameter_chain side (first :: rest)
    exact ⟨height_chain side _, size_chain side _, diameter,
      (Walk.frameDiameter_eq _).trans diameter⟩

/-- On the left nothing is missing beside the second node. -/
example :
    Tree.ofEntries? [some 1, some 2, none, some 3] =
      .ok (chain .left [1, 2, 3]) := by
  decide

end LevelOrder

end Longest
