import Longest.Proofs.Tree.Dismantle
import Mathlib.Logic.ExistsUnique

/-!
# Every node is released once

In a marked tree no two nodes look alike, so it can be seen which node a step
takes from the worklist: each node below the root has its turn, and none has
two.  A tree without marks is taken apart in the same steps.

What is released has nothing hanging from it.  Taking it apart in turn
therefore ends at once, and calls are never nested more than one deep, whatever
the depth of the tree.
-/

namespace Longest.Dismantling

variable {α : Type}

/-! ## Which node a step takes -/

/--
After a number of steps the node at an address of the tree is the next to be
taken.  The marks tell it from all other nodes.
-/
def Takes (tree : Tree α) (count : Nat) (address : Address) : Prop :=
  ∃ state subtree pending, (start tree.marked).after? count = some state ∧
    state.pending = subtree :: pending ∧
    tree.marked.subtree? address = some subtree

section Takes

variable {tree : Tree α} {count : Nat} {address : Address}

/-- What is taken is the node with the next mark in the order of release. -/
theorem Takes.exists_entry (takes : Takes tree count address) :
    address ≠ [] ∧ ∃ entry, tree.marked.valueAt? address = some entry ∧
      tree.marked.releaseOrder.tail[count]? = some entry := by
  rcases takes with ⟨state, subtree, pending, reached, waiting, found⟩
  have underway := isUnderway_of_after? reached
  have next := underway.getElem?_releaseOrder
  rcases underway.exists_node waiting with
    ⟨address', entry, left, right, notRoot, rfl, found'⟩
  have foundEntry := Tree.valueAt?_of_subtree? found
  have sameAddress : address = address' := tree.isDistinct_marked _ _ entry
    foundEntry (Tree.valueAt?_of_subtree? found')
  rw [waiting] at next
  exact ⟨sameAddress ▸ notRoot, entry, foundEntry, next⟩

theorem Takes.unique
    {count' : Nat} (takes : Takes tree count address)
    (takes' : Takes tree count' address) :
    count = count' := by
  rcases takes.exists_entry with ⟨_, entry, found, isNext⟩
  rcases takes'.exists_entry with ⟨_, entry', found', isNext'⟩
  cases found.symm.trans found'
  have once : tree.marked.releaseOrder.tail.Nodup :=
    tree.isDistinct_marked.nodup_releaseOrder.tail
  have inside := (List.getElem?_eq_some_iff.mp isNext).1
  exact (List.getElem?_inj inside once).mp (isNext.trans isNext'.symm)

/-- Every step takes a node. -/
theorem exists_takes_of_lt (bounded : count < tree.size - 1) :
    ∃ address, Takes tree count address := by
  rw [← tree.size_marked] at bounded
  rcases exists_after? (Nat.le_of_lt bounded) with ⟨state, reached⟩
  have underway := isUnderway_of_after? reached
  cases waiting : state.pending with
  | nil =>
      exact absurd bounded
        (Nat.not_lt_of_le (underway.pending_eq_nil_iff.mp waiting))
  | cons subtree pending =>
      rcases underway.exists_node waiting with ⟨address, _, _, _, _, rfl, found⟩
      exact ⟨address, state, _, pending, reached, waiting, found⟩

theorem Takes.count_lt (takes : Takes tree count address) :
    count < tree.size - 1 := by
  rcases takes.exists_entry with ⟨_, entry, _, isNext⟩
  have inside := (List.getElem?_eq_some_iff.mp isNext).1
  rwa [List.length_tail, Tree.length_releaseOrder, Tree.size_marked] at inside

/--
Every node below the root has its turn: only the root is not taken, and it
has another mark.
-/
theorem exists_takes_of_hasNode
    (hasNode : tree.HasNode address) (notRoot : address ≠ []) :
    ∃ count, Takes tree count address := by
  rcases Tree.hasNode_iff_exists_valueAt?.mp
    (Tree.hasNode_marked_iff.mpr hasNode) with
      ⟨entry, found⟩
  have belowRoot : entry ∈ tree.marked.releaseOrder.tail := by
    have member := Tree.mem_releaseOrder_iff.mpr ⟨address, found⟩
    cases tree with
    | empty => cases member
    | node value left right =>
        rcases List.mem_cons.mp member with rfl | below
        · exact absurd (Tree.fst_of_valueAt?_marked found).symm notRoot
        · exact below
  rcases List.mem_iff_getElem?.mp belowRoot with ⟨count, isNext⟩
  have bounded := (List.getElem?_eq_some_iff.mp isNext).1
  rw [List.length_tail, Tree.length_releaseOrder, Tree.size_marked] at bounded
  rcases exists_takes_of_lt bounded with ⟨address', takes⟩
  rcases takes.exists_entry with ⟨_, entry', found', isNext'⟩
  cases isNext.symm.trans isNext'
  cases tree.isDistinct_marked _ _ entry found found'
  exact ⟨count, takes⟩

end Takes

/-! ## Nested calls -/

/--
Taking a tree apart has no more than `depth` calls open at the same time, its
own included.  What a step releases is taken apart in turn, and so is what would
still hang from the root in the end.
-/
inductive OpensWithin : Nat → Tree α → Prop where
  | call
      {depth : Nat} {tree : Tree α}
      (released :
        ∀ remainder ∈ (start tree).run.released, OpensWithin depth remainder)
      (hanging :
        ∀ side, (tree.detach []).1.child side ≠ .empty →
          OpensWithin depth ((tree.detach []).1.child side)) :
      OpensWithin (depth + 1) tree

theorem run_start_leaf (value : α) :
    (start (.leaf value)).run = start (.leaf value) :=
  run_of_step?_eq_none rfl

/-- Nothing is released, and nothing hangs from the root. -/
theorem opensWithin_leaf (value : α) : OpensWithin 1 (Tree.leaf value) := by
  constructor
  · rw [run_start_leaf]
    exact nofun
  · intro side hangs
    cases side <;> exact absurd rfl hangs

/--
The second call is that for what a step releases, and it opens no third one.
-/
theorem opensWithin_two (tree : Tree α) : OpensWithin 2 tree := by
  constructor
  · intro remainder member
    rcases exists_last tree with ⟨last, reached, _, result⟩
    rw [result] at member
    rcases (isUnderway_of_after? reached).bare remainder member with
      ⟨value, rfl⟩
    exact opensWithin_leaf value
  · intro side hangs
    cases tree <;> cases side <;> exact absurd rfl hangs

/-! ## Taking a tree apart -/

theorem after?_start_eq_map_marked (tree : Tree α) (count : Nat) :
    (start tree).after? count =
      ((start tree.marked).after? count).map (map Prod.snd) := by
  rw [← after?_map, ← start_map, Tree.map_snd_marked]

/--
A tree is taken apart in one step for each node below the root, and what is left
of the root is released last.  The steps are those of the marked tree without
the marks.  Each of them takes a node below the root, and each of these nodes is
taken once.  When it is released both sides have been detached, so taking it
apart in turn begins with an empty worklist and ends at once; therefore no more
than two calls are ever open.
-/
theorem takes_each_node_once {tree : Tree α} (nonempty : tree ≠ .empty) :
    (∃ last value, (start tree).after? (tree.size - 1) = some last ∧
        last.step? = none ∧ (start tree).run = last ∧ tree.value? = some value ∧
        tree.dismantle = last.released.reverse ++ [.leaf value]) ∧
      (∀ count,
        (start tree).after? count =
          ((start tree.marked).after? count).map (map Prod.snd)) ∧
      (∀ count, (∃ address, Takes tree count address) ↔ count < tree.size - 1) ∧
      (∀ count address, Takes tree count address →
        tree.HasNode address ∧ address ≠ []) ∧
      (∀ address, tree.HasNode address → address ≠ [] →
        ∃! count, Takes tree count address) ∧
      (∀ count state next, (start tree).after? count = some state →
        state.step? = some next →
        ∃ value left right pending,
          state.pending = .node value left right :: pending ∧
          next =
            ⟨right.hold (left.hold pending), .leaf value :: state.released⟩ ∧
          (start (.leaf value)).pending = [] ∧
          (start (.leaf value)).run = start (.leaf value)) ∧
      OpensWithin 2 tree := by
  refine ⟨?_, after?_start_eq_map_marked tree, ?_, ?_, ?_, ?_,
    opensWithin_two tree⟩
  · rcases exists_last tree with ⟨last, reached, ended, result⟩
    cases tree with
    | empty => exact absurd rfl nonempty
    | node value left right =>
        refine ⟨last, value, reached, ended, result, rfl, ?_⟩
        rw [Tree.dismantle, result, List.reverse_cons]
        rfl
  · exact fun count => ⟨fun ⟨_, takes⟩ => takes.count_lt, exists_takes_of_lt⟩
  · intro count address takes
    rcases takes.exists_entry with ⟨notRoot, entry, found, _⟩
    have hasNode := Tree.hasNode_iff_exists_valueAt?.mpr ⟨entry, found⟩
    exact ⟨Tree.hasNode_marked_iff.mp hasNode, notRoot⟩
  · intro address hasNode notRoot
    rcases exists_takes_of_hasNode hasNode notRoot with ⟨count, takes⟩
    exact ⟨count, takes, fun count' takes' => takes'.unique takes⟩
  · intro count state next reached stepped
    rcases (isUnderway_of_after? reached).step?_cases stepped with
      ⟨value, left, right, pending, waiting, result⟩
    exact ⟨value, left, right, pending, waiting, result, rfl,
      run_start_leaf value⟩

/--
Two leaves hold the same value; the right one is taken first and
the left one last.
-/
theorem takes_each_twin_once :
    let tree : Tree Nat := .node 1 (.node 2 (.leaf 3) .empty) (.leaf 3)
    tree ≠ .empty ∧
      (∃ last, (start tree).after? 3 = some last ∧ last.step? = none ∧
        tree.dismantle = last.released.reverse ++ [.leaf 1]) ∧
      (Takes tree 0 [.right] ∧ tree.HasNode [.right]) ∧
      (Takes tree 2 [.left, .left] ∧
        ∃! count, Takes tree count [.left, .left]) ∧
      ((start tree).after? 1 = some ⟨[.node 2 (.leaf 3) .empty], [.leaf 3]⟩ ∧
        step? ⟨[.node 2 (.leaf 3) .empty], [.leaf 3]⟩ =
            some ⟨[.leaf 3], [.leaf 2, .leaf 3]⟩ ∧
          (start (Tree.leaf 2)).run = start (.leaf 2)) ∧
      OpensWithin 2 tree ∧ ¬ OpensWithin 1 tree := by
  intro tree
  have nonempty : tree ≠ .empty := nofun
  have first : Takes tree 0 [.right] := ⟨_, _, _, rfl, rfl, rfl⟩
  have third : Takes tree 2 [.left, .left] := ⟨_, _, _, rfl, rfl, rfl⟩
  have reached :
      (start tree).after? 1 = some ⟨[.node 2 (.leaf 3) .empty], [.leaf 3]⟩ :=
    rfl
  have stepped :
      step? ⟨[.node 2 (.leaf 3) .empty], [.leaf 3]⟩ =
        some ⟨[.leaf 3], [.leaf 2, .leaf (3 : Nat)]⟩ :=
    rfl
  rcases takes_each_node_once nonempty with
    ⟨⟨last, _, inSteps, ended, result, isRoot, order⟩, _, _, below, once, each,
      shallow⟩
  cases isRoot
  rcases each 1 _ _ reached stepped with ⟨_, _, _, _, waiting, _, _, nested⟩
  cases waiting
  rcases below 2 _ third with ⟨hasNode, notRoot⟩
  have notAlone : ¬ OpensWithin 1 tree := by
    intro opens
    cases opens with
    | call released hanging =>
        cases inSteps
        rw [result] at released
        cases released (.leaf 3) List.mem_cons_self
  exact ⟨nonempty, ⟨last, inSteps, ended, order⟩, ⟨first, (below 0 _ first).1⟩,
    ⟨third, once _ hasNode notRoot⟩, ⟨reached, stepped, nested⟩, shallow,
    notAlone⟩

end Longest.Dismantling
