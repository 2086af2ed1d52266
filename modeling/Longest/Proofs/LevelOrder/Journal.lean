import Longest.Proofs.LevelOrder.Faults
import Longest.Proofs.LevelOrder.Seating
import Longest.Tree.Report

/-!
# What the journal tells about reading

The journal is written between the two passes of reading: the entries are
numbered, but no tree is built yet.  The number of nodes that it tells is the
number of cells, which is right because building makes one node of every cell.
All entries count, also absent ones that no node takes.

An empty tree and an error leave no trace, in whichever stage the error is
found.
-/

namespace Longest.LevelOrder

open Longest.Tree

variable {α : Type}

/--
What is to be told of the result of reading this many entries: one line if
a node was made.
-/
def announcement (entries : Nat) : Except Error (Tree α) → List String
  | .ok (.node value left right) =>
    [s!"DEBUG level order: {entries} entries, {(node value left right).size} nodes"]
  | .ok .empty => []
  | .error _ => []

theorem line_levelOrder (entries nodes : Nat) :
    (Event.levelOrder entries nodes).line =
      s!"DEBUG level order: {entries} entries, {nodes} nodes" := by
  have opening : "DEBUG level order: " = "DEBUG" ++ " " ++ "level order: " := by
    decide
  change "DEBUG" ++ " " ++
      ("level order: " ++ toString entries ++ " entries, " ++ toString nodes ++
        " nodes") =
    "DEBUG level order: " ++ toString entries ++ " entries, " ++
      toString nodes ++ " nodes"
  rw [opening]
  simp only [String.append_assoc]

theorem announcement_ok
    {tree : Tree α} (nonempty : tree ≠ empty) (entries : Nat) :
    announcement entries (.ok tree) =
      [(Event.levelOrder entries tree.size).line] := by
  cases tree with
  | empty => exact absurd rfl nonempty
  | node value left right =>
      exact congrArg (fun line => [line]) (line_levelOrder _ _).symm

/-- Building makes one node of every cell. -/
theorem Records.size_toTree
    {entries : List (Option α)} {served : Nat} {numbering : Numbering α}
    {value : α}
    (records : Records entries served numbering)
    (first : entryAt entries 0 = some value) :
    numbering.toTree.size = numbering.cells.size := by
  have read :=
    ofEntries?_eq_ok_iff.mpr ⟨records.attached, records.isTreeAt_toTree first⟩
  rw [size_eq_countP read, records.size, rank, List.take_length]

theorem lines_ofEntries? (entries : List (Option α)) :
    (Report.ofEntries? entries).events.map Event.line =
      announcement entries.length (Report.ofEntries? entries).value := by
  have reading := reading_ofEntries? entries
  unfold Report.ofEntries?
  generalize Numbering.ofEntries? entries = result at reading
  cases reading with
  | empty absent => rfl
  | @numbered taken served numbering value first same records =>
      have firstTaken := (same 0).trans first
      have isTree := records.isTreeAt_toTree firstTaken
      change [(Event.levelOrder entries.length numbering.cells.size).line] =
        announcement entries.length (.ok numbering.toTree)
      rw [announcement_ok (isTree.ne_empty firstTaken),
        records.size_toTree firstTaken]
  | detached entry behind least => rfl

theorem lines_ofText?
    {text : String} {inside : List Char}
    (enclosed : IsEnclosed inside text.toList) :
    (Report.ofText? text).events.map Event.line =
      announcement (pieces inside).length (Report.ofText? text).value := by
  unfold Report.ofText?
  cases read : readEntries text.toList with
  | error error => rfl
  | ok entries =>
      have lists := readEntries_eq_ok_iff.mp read
      rw [← lists.length_eq enclosed]
      exact lines_ofEntries? entries

/--
Reading writes one line if it gives a tree with nodes, and nothing otherwise.
The line tells how many entries were read, absent ones at the end included, and
how many nodes the tree has.  The entries of a text are the pieces between its
brackets; without brackets there is nothing to tell.
-/
theorem journal_of_reading :
    (∀ entries : List (Option α),
      (Report.ofEntries? entries).events.map Event.line =
        announcement entries.length (Report.ofEntries? entries).value) ∧
    (∀ text inside, IsEnclosed inside text.toList →
      (Report.ofText? text).events.map Event.line =
        announcement (pieces inside).length (Report.ofText? text).value) ∧
    ∀ text : String, (∀ inside, ¬ IsEnclosed inside text.toList) →
      (Report.ofText? text).events = [] := by
  refine ⟨lines_ofEntries?, fun text inside => lines_ofText?, ?_⟩
  intro text notEnclosed
  rw [Report.ofText?, readEntries_of_not_isEnclosed notEnclosed]
  rfl

/--
Two of the four tokens are nodes; without its first bracket the text is passed
over in silence.
-/
theorem journal_of_padded :
    (IsEnclosed "5, null,7 ,null".toList " [5, null,7 ,null]\n".toList ∧
        (Report.ofText? " [5, null,7 ,null]\n").events.map Event.line =
          ["DEBUG level order: 4 entries, 2 nodes"]) ∧
      (∀ inside, ¬ IsEnclosed inside "5,null]".toList) ∧
      (Report.ofText? "5,null]").events = [] := by
  have enclosed :
      IsEnclosed "5, null,7 ,null".toList " [5, null,7 ,null]\n".toList := by
    unfold IsEnclosed
    decide
  have notEnclosed : ∀ inside, ¬ IsEnclosed inside "5,null]".toList :=
    inside?_eq_none_iff.mp (by decide)
  have told := (@journal_of_reading Int64).2.1 _ _ enclosed
  refine ⟨⟨enclosed, told.trans ?_⟩, notEnclosed,
    (@journal_of_reading Int64).2.2 _ notEnclosed⟩
  decide

end Longest.LevelOrder
