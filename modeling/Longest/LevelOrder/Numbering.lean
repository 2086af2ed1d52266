import Longest.Error
import Longest.Queue
import Longest.Tree.Basic

/-!
# Trees from level order

Level order lists the values of a tree breadth first, with `none` for an absent
child; children of absent nodes are not listed.  Reading it numbers the nodes
from 0 in the order of the list.  The numbers of nodes whose children are not
yet read wait in a queue, and each of them takes the next two entries as its
left and its right child.

What is read is a numbering: for every node its value and the numbers of its
children, which are always greater than its own.  The tree is then built from
the last node to the first, so that the subtrees of a node are there when it
is built; each of them is taken out of the row of finished subtrees and hung
under its parent.
-/

namespace Longest

namespace LevelOrder

variable {α : Type}

/-- A numbered node with the numbers of its children. -/
structure Cell (α : Type) where
  value : α
  left : Option Nat
  right : Option Nat
  deriving Repr

/-- A node whose children are not known. -/
def Cell.bare (value : α) : Cell α :=
  ⟨value, none, none⟩

/-- The node with a child of the given number on one side. -/
def Cell.link (cell : Cell α) (side : Side) (child : Nat) : Cell α :=
  match side with
  | .left => { cell with left := some child }
  | .right => { cell with right := some child }

/-- The nodes read so far. -/
structure Numbering (α : Type) where
  /-- The node of each number. -/
  cells : Array (Cell α)
  /-- The numbers of nodes that still await their children. -/
  waiting : Queue Nat

namespace Numbering

/-- Only the root is read. -/
def root (value : α) : Numbering α :=
  ⟨#[Cell.bare value], Queue.single 0⟩

/--
Makes an entry the child of a node; a value becomes a node with the next number.
-/
def attach (numbering : Numbering α) (parent : Nat) (side : Side) :
    Option α → Numbering α
  | none => numbering
  | some value =>
    let child := numbering.cells.size
    { cells :=
        (numbering.cells.modify parent (Cell.link · side child)).push
          (Cell.bare value)
      waiting := numbering.waiting.enqueue child }

/--
Gives the entries, two by two, to the nodes that await their children.  What is
left over when no node awaits any more is returned as it is.
-/
def read (numbering : Numbering α) :
    List (Option α) → Numbering α × List (Option α)
  | [] => (numbering, [])
  | [last] =>
    match numbering.waiting.dequeue? with
    | none => (numbering, [last])
    | some (parent, waiting) =>
      (attach { numbering with waiting } parent .left last, [])
  | first :: second :: rest =>
    match numbering.waiting.dequeue? with
    | none => (numbering, first :: second :: rest)
    | some (parent, waiting) =>
      let numbering := attach { numbering with waiting } parent .left first
      read (numbering.attach parent .right second) rest

/--
The numbering of a tree in level order, and `none` for the empty tree.  It is an
error if a value follows an absent root or is left over.
-/
def ofEntries? (entries : List (Option α)) :
    Except Error (Option (Numbering α)) :=
  match entries with
  | [] => .ok none
  | none :: rest =>
    match rest.findIdx? Option.isSome with
    | none => .ok none
    | some offset => .error (.detachedNode (1 + offset))
  | some value :: rest =>
    let (numbering, unread) := (root value).read rest
    match unread.findIdx? Option.isSome with
    | none => .ok (some numbering)
    | some offset =>
      .error (.detachedNode (entries.length - unread.length + offset))

/-- Takes the subtree with the given number out of the row of finished ones. -/
def takeOut (finished : Array (Tree α)) : Option Nat → Tree α × Array (Tree α)
  | none => (.empty, finished)
  | some child =>
    (finished.getD child .empty, finished.setIfInBounds child .empty)

/-- Builds the node with the given number from its finished subtrees. -/
def finish (number : Nat) (cell : Cell α) (finished : Array (Tree α)) :
    Array (Tree α) :=
  let (left, finished) := takeOut finished cell.left
  let (right, finished) := takeOut finished cell.right
  finished.setIfInBounds number (.node cell.value left right)

/--
The row of finished subtrees after all nodes were built, the last one first.
-/
def finishAll (numbering : Numbering α) : Array (Tree α) :=
  numbering.cells.toList.zipIdx.foldr (fun (cell, number) => finish number cell)
    (Array.replicate numbering.cells.size .empty)

/-- The tree of a numbering. -/
def toTree (numbering : Numbering α) : Tree α :=
  numbering.finishAll.getD 0 .empty

end Numbering

end LevelOrder

/-- The tree with the given level order. -/
def Tree.ofEntries? {α : Type} (entries : List (Option α)) :
    Except Error (Tree α) :=
  (LevelOrder.Numbering.ofEntries? entries).map fun
    | none => .empty
    | some numbering => numbering.toTree

end Longest
