import Longest.Journal
import Longest.LevelOrder.Text
import Longest.Tree.Frames

/-!
# Measured operations on trees

Building a tree from level order and finding its diameter, with the events that
they leave in the journal.  Building leaves one event if a nonempty tree comes
out of it and none otherwise.
-/

namespace Longest.Tree.Report

variable {α : Type}

/-- The tree of a numbering that was read from this many entries. -/
def grow (entries : Nat) : Option (LevelOrder.Numbering α) → Logged (Tree α)
  | none => return empty
  | some numbering => do
    Logged.note (.levelOrder entries numbering.cells.size)
    return numbering.toTree

/-- The tree with the given level order. -/
def ofEntries? (entries : List (Option α)) : Logged (Except Error (Tree α)) :=
  match LevelOrder.Numbering.ofEntries? entries with
  | .error error => return .error error
  | .ok numbering => .ok <$> grow entries.length numbering

/-- The tree written in a text. -/
def ofText? (text : String) : Logged (Except Error (Tree Int64)) :=
  match LevelOrder.readEntries text.toList with
  | .error error => return .error error
  | .ok entries => ofEntries? entries

/-- The diameter by recursion. -/
def diameter (tree : Tree α) : Logged Nat := do
  let edges := tree.diameter
  Logged.note (.diameter edges)
  return edges

/-- The diameter with a stack of frames. -/
def frameDiameter (tree : Tree α) : Logged Nat := do
  let edges := tree.frameDiameter
  Logged.note (.frameDiameter edges)
  return edges

/-- What is known about a node and all that hangs from it. -/
structure Facts (α : Type) where
  value : α
  height : Nat
  size : Nat
  isLeaf : Bool

/-- The facts about the root; `none` for the empty tree. -/
def facts? : Tree α → Option (Facts α)
  | empty => none
  | tree@(node value _ _) =>
    some
      { value, height := tree.height, size := tree.size,
        isLeaf := tree.isLeaf }

/-- The facts about the root of a tree, and both diameters. -/
structure Survey (α : Type) where
  root : Option (Facts α)
  diameter : Nat
  frameDiameter : Nat

/-- Surveys a tree; the recursive diameter is found first. -/
def survey (tree : Tree α) : Logged (Survey α) := do
  let diameter ← diameter tree
  let frameDiameter ← frameDiameter tree
  return { root := facts? tree, diameter, frameDiameter }

/-- The journal does not change which tree is built. -/
@[simp]
theorem value_ofEntries? (entries : List (Option α)) :
    (ofEntries? entries).value = Tree.ofEntries? entries := by
  unfold ofEntries? Tree.ofEntries?
  cases LevelOrder.Numbering.ofEntries? entries with
  | error error => rfl
  | ok numbering => cases numbering <;> rfl

/-- The journal does not change which tree is read. -/
@[simp]
theorem value_ofText? (text : String) :
    (ofText? text).value = Tree.ofText? text := by
  unfold ofText? Tree.ofText?
  cases LevelOrder.readEntries text.toList with
  | error error => rfl
  | ok entries => exact value_ofEntries? entries

end Longest.Tree.Report
