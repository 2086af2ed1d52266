import Longest.Tree.Diameter

/-!
# Diameter with a stack of frames

The visit that `Tree.visit` makes by recursion, made with two stacks.  A frame
on the first stack is a subtree still to enter or the exit from a node; the
heights of finished subtrees wait on the second one, the left height under the
right one.  An exit frame does not say which node it belongs to: the two
uppermost heights are those of its sides whenever the walk gets there.

Each turn takes one frame.  `Walk.weight` counts the turns still to come, which
bounds the walk.
-/

namespace Longest

/-- Work that waits on the stack. -/
inductive Frame (α : Type) where
  | enter (tree : Tree α)
  | exit

/-- The number of turns that frames cause, their own included. -/
def Frame.turns {α : Type} : List (Frame α) → Nat
  | [] => 0
  | enter tree :: rest => 3 * tree.size + 1 + turns rest
  | exit :: rest => 1 + turns rest

/-- The state of a visit between two turns. -/
structure Walk (α : Type) where
  /-- What is to be done, the next frame first. -/
  frames : List (Frame α)
  /--
  The heights of finished subtrees whose parent is not finished,
  the latest first.
  -/
  heights : List Int
  /-- The greatest length of a path seen so far. -/
  diameter : Int

namespace Walk

variable {α : Type}

/-- The walk about to enter a tree. -/
def start (tree : Tree α) : Walk α :=
  ⟨[.enter tree], [], 0⟩

/-- The number of turns still to come. -/
def weight (walk : Walk α) : Nat :=
  Frame.turns walk.frames

/-- What becomes of a walk. -/
inductive Outcome (α : Type) where
  /-- No frame is left. -/
  | finished (diameter : Int)
  /-- One frame was taken. -/
  | moved (walk : Walk α)
  /-- A node was to be left without two heights on the stack. -/
  | stuck

/-- Takes the next frame. -/
def turn : Walk α → Outcome α
  | ⟨[], _, diameter⟩ => .finished diameter
  | ⟨.enter .empty :: frames, heights, diameter⟩ =>
    .moved ⟨frames, -1 :: heights, diameter⟩
  | ⟨.enter (.node _ left right) :: frames, heights, diameter⟩ =>
    .moved ⟨.enter left :: .enter right :: .exit :: frames, heights, diameter⟩
  | ⟨.exit :: frames, right :: left :: heights, diameter⟩ =>
    .moved
      ⟨frames, Tree.rise left right :: heights,
        max diameter (Tree.apex left right)⟩
  | ⟨.exit :: _, _, _⟩ => .stuck

/-- Each turn makes the walk lighter by one. -/
theorem weight_of_turn {walk next : Walk α} (moved : walk.turn = .moved next) :
    walk.weight = next.weight + 1 := by
  unfold turn at moved
  split at moved <;> cases moved <;>
    simp only [weight, Frame.turns, Tree.size] <;> omega

/-- Walks on until no frame is left; `none` if the walk gets stuck. -/
def run (walk : Walk α) : Option Int :=
  match _ : walk.turn with
  | .finished diameter => some diameter
  | .moved next => next.run
  | .stuck => none
termination_by walk.weight
decreasing_by
  have moved : walk.turn = .moved next := by assumption
  exact weight_of_turn moved ▸ Nat.lt_succ_self _

end Walk

/-- The diameter found by a walk through the tree, whatever its depth. -/
def Tree.frameDiameter {α : Type} (tree : Tree α) : Nat :=
  match (Walk.start tree).run with
  | some diameter => diameter.toNat
  | none => 0

end Longest
