import Longest.Tree.Basic

/-!
# Taking a tree apart

A tree of any depth is taken apart with a worklist: the subtrees of the root are
detached and put on the list; then, until the list is empty, one subtree is
taken from it, its own subtrees are detached and put on the list, and what
remains of it is released.  What is released has nothing hanging from it, so
taking it apart in turn would find an empty worklist.
-/

namespace Longest

namespace Tree

variable {α : Type}

/-- The root of a tree after the subtree on one side was taken away. -/
def prune : Side → Tree α → Tree α
  | _, empty => empty
  | .left, node value _ right => node value empty right
  | .right, node value left _ => node value left empty

/-- Puts a detached subtree on a worklist, unless it is empty. -/
def hold (tree : Tree α) (pending : List (Tree α)) : List (Tree α) :=
  match tree with
  | empty => pending
  | node value left right => node value left right :: pending

/-- Detaches both subtrees, the left one first, and puts them on a worklist. -/
def detach (tree : Tree α) (pending : List (Tree α)) : Tree α × List (Tree α) :=
  let pending := (tree.child .left).hold pending
  let tree := tree.prune .left
  let pending := (tree.child .right).hold pending
  (tree.prune .right, pending)

end Tree

/-- The state of taking a tree apart. -/
structure Dismantling (α : Type) where
  /-- Detached subtrees, the one to be taken next in front. -/
  pending : List (Tree α)
  /-- What has been released, the latest first, as it was at its release. -/
  released : List (Tree α)

namespace Dismantling

variable {α : Type}

/-- The subtrees of the root are detached, and nothing is released yet. -/
def start (tree : Tree α) : Dismantling α :=
  ⟨(tree.detach []).2, []⟩

/-- Takes one subtree from the worklist; `none` if the worklist is empty. -/
def step? : Dismantling α → Option (Dismantling α)
  | ⟨[], _⟩ => none
  | ⟨tree :: pending, released⟩ =>
    let (remainder, pending) := tree.detach pending
    some ⟨pending, remainder :: released⟩

/--
A bound on the steps still to come: twice the number of nodes on the worklist,
and one for each subtree.
-/
def weight (state : Dismantling α) : Nat :=
  2 * Tree.forestSize state.pending + state.pending.length

theorem forestSize_hold (tree : Tree α) (pending : List (Tree α)) :
    Tree.forestSize (tree.hold pending) =
      tree.size + Tree.forestSize pending := by
  cases tree with
  | empty => simp [Tree.hold, Tree.size]
  | node value left right => rfl

theorem length_hold_le (tree : Tree α) (pending : List (Tree α)) :
    (tree.hold pending).length ≤ pending.length + 1 := by
  cases tree with
  | empty => exact Nat.le_succ _
  | node value left right => exact Nat.le_refl _

/-- Each step leaves less to do. -/
theorem weight_of_step?
    {state next : Dismantling α} (stepped : state.step? = some next) :
    next.weight < state.weight := by
  obtain ⟨pending, released⟩ := state
  cases pending with
  | nil => cases stepped
  | cons tree pending =>
    cases stepped
    cases tree with
    | empty =>
      change weight ⟨pending, released⟩ <
        2 * (0 + Tree.forestSize pending) + (pending.length + 1)
      simp only [weight]
      omega
    | node value left right =>
      have leftHeld := length_hold_le left pending
      have rightHeld := length_hold_le right (left.hold pending)
      simp only [weight, Tree.child, Tree.prune, forestSize_hold,
        Tree.forestSize, Tree.size, List.length_cons]
      omega

/-- Goes on until the worklist is empty. -/
def run (state : Dismantling α) : Dismantling α :=
  match _ : state.step? with
  | some next => next.run
  | none => state
termination_by state.weight
decreasing_by exact weight_of_step? (by assumption)

end Dismantling

/--
What is released, in this order, when a tree is taken apart; the
root comes last.
-/
def Tree.dismantle {α : Type} (tree : Tree α) : List (Tree α) :=
  ((tree.detach []).1 :: (Dismantling.start tree).run.released).reverse

end Longest
