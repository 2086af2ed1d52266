import Longest.Proofs.Tree.Frames

/-!
# What waits below is left alone

A walk takes its next frame from the top of one stack and finds the heights that
it needs on top of the other one.  So frames and heights that wait below do not
change the turns that it can make without them.  A walk through a tree needs
nothing but the tree; whatever waits below is still there when it comes out,
under the height of the tree.
-/

namespace Longest.Walk

variable {α : Type}

/-- The walk on top of frames and heights that wait. -/
def above (walk : Walk α) (frames : List (Frame α)) (heights : List Int) :
    Walk α :=
  ⟨walk.frames ++ frames, walk.heights ++ heights, walk.diameter⟩

/--
The step: a turn that can be made is made in the same way on top of what waits.
At an exit both heights are the walk's own, or it would be stuck alone.
-/
theorem turn_above
    {walk next : Walk α} (moved : walk.turn = .moved next)
    (frames : List (Frame α)) (heights : List Int) :
    (walk.above frames heights).turn = .moved (next.above frames heights) := by
  rcases walk with ⟨own, ownHeights, diameter⟩
  cases own with
  | nil => cases moved
  | cons frame own =>
      cases frame with
      | enter tree =>
          cases tree with
          | empty =>
              cases moved
              rfl
          | node value left right =>
              cases moved
              rfl
      | exit =>
          match ownHeights, moved with
          | [], moved => cases moved
          | [_], moved => cases moved
          | right :: left :: ownHeights, moved =>
              cases moved
              rfl

/-- The run: all turns are made in the same way on top of what waits. -/
theorem Turns.above
    {count : Nat} {walk last : Walk α} (turns : Turns count walk last)
    (frames : List (Frame α)) (heights : List Int) :
    Turns count (walk.above frames heights) (last.above frames heights) := by
  induction turns with
  | none walk => exact .none _
  | first moved _ induction =>
      exact .first (turn_above moved frames heights) induction

/--
On top of any frames and heights, a walk that enters a tree comes out of it
after three turns for each node and one more.  Then the same frames and heights
are there, with the height of the tree on top, and the diameter is the greater
one of that seen before and that of the tree.  Each of these turns is one that
the walk makes without the frames and heights below.
-/
theorem turns_enter_above
    (tree : Tree α) (frames : List (Frame α)) (heights : List Int)
    {diameter : Int}
    (nonneg : 0 ≤ diameter) :
    Turns (3 * tree.size + 1) ⟨.enter tree :: frames, heights, diameter⟩
        ⟨frames, tree.depth :: heights, max diameter tree.diameter⟩ ∧
      ∀ count walk,
        Turns count ⟨.enter tree :: frames, heights, diameter⟩ walk →
        count < 3 * tree.size + 1 →
        ∃ own next, Turns count ⟨[.enter tree], [], diameter⟩ own ∧
          own.turn = .moved next ∧ walk = own.above frames heights ∧
          walk.turn = .moved (next.above frames heights) := by
  have alone := turns_enter tree [] [] diameter
  rw [tree.visit_of_nonneg nonneg] at alone
  refine ⟨alone.above frames heights, ?_⟩
  intro count walk made before
  rcases alone.exists_turn before with ⟨own, next, ownMade, moved⟩
  have same : walk = own.above frames heights :=
    made.unique (ownMade.above frames heights)
  refine ⟨own, next, ownMade, moved, same, ?_⟩
  rw [same]
  exact turn_above moved frames heights

/--
The exit of a leaf does not touch the two heights that wait,
although it takes two.
-/
theorem turns_enter_above_exit :
    let tree : Tree Nat := .node 1 (.leaf 2) .empty
    let pending : List (Frame Nat) := [.exit]
    let walk : Walk Nat :=
      ⟨.exit :: .enter .empty :: .exit :: pending, -1 :: -1 :: [3, 5], 0⟩
    (0 : Int) ≤ 0 ∧
      Turns 7 ⟨.enter tree :: pending, [3, 5], 0⟩ ⟨pending, [1, 3, 5], 1⟩ ∧
      (Turns 4 ⟨.enter tree :: pending, [3, 5], 0⟩ walk ∧
        4 < 3 * tree.size + 1 ∧
          ∃ own next, Turns 4 ⟨[.enter tree], [], 0⟩ own ∧
            own.turn = .moved next ∧
              walk = own.above pending [3, 5] ∧
                walk.turn = .moved (next.above pending [3, 5])) := by
  intro tree pending walk
  rcases turns_enter_above tree pending [3, 5] (Int.le_refl 0) with
    ⟨through, onTop⟩
  have made : Turns 4 ⟨.enter tree :: pending, [3, 5], 0⟩ walk :=
    .first rfl <| .first rfl <| .first rfl <| .first rfl <| .none _
  have before : 4 < 3 * tree.size + 1 := by decide
  exact ⟨Int.le_refl 0, through, made, before, onTop 4 walk made before⟩

end Longest.Walk
