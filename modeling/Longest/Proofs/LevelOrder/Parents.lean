import Longest.Proofs.LevelOrder.Detached
import Longest.Proofs.LevelOrder.Seating

/-!
# Every node is taken out of the row once

A numbering is *rooted* if every number but that of the root is named by exactly
one node as its child, on one side, and if children have greater numbers than
their parents.  The numberings that are read from level order are rooted.

Building the tree needs nothing else.  When the nodes from number `first` on are
built, the row holds the subtrees of those of them that have no parent among
them.  So a node that is to be built finds all its children in the row, and in
the end only the root is left there.
-/

namespace Longest.LevelOrder

open Longest.LevelOrder.Numbering
open Longest.Tree

variable {α : Type}

/-- The number of the child on one side. -/
def Cell.child (cell : Cell α) : Side → Option Nat
  | .left => cell.left
  | .right => cell.right

/-- A node names a number as that of its child on one side. -/
def Names (numbering : Numbering α) (parent : Nat) (side : Side) (child : Nat) :
    Prop :=
  ∃ cell, numbering.cells[parent]? = some cell ∧ cell.child side = some child

/-- A numbering whose nodes hang together under the one with number 0. -/
structure IsRooted (numbering : Numbering α) : Prop where
  hasRoot : 0 < numbering.cells.size
  /--
  Children have greater numbers, and there are no others than those of nodes.
  -/
  names_lt :
    ∀ parent side child, Names numbering parent side child →
      parent < child ∧ child < numbering.cells.size
  /-- Every number but that of the root is named once. -/
  existsUnique_names :
    ∀ child, 1 ≤ child → child < numbering.cells.size →
      ∃! name : Nat × Side, Names numbering name.1 name.2 child

/-! ## The numberings that are read -/

section Records

variable {entries : List (Option α)} {served : Nat} {numbering : Numbering α}

theorem cellOf_child
    (entries : List (Option α)) (number : Nat) (value : α) (side : Side) :
    (cellOf entries number value).child side =
      numberAt entries (childPlace number side) := by
  cases side <;> rfl

theorem numberAt_eq_some_iff {place number : Nat} :
    numberAt entries place = some number ↔
      (∃ value, entryAt entries place = some value) ∧
        rank entries place = number := by
  rw [numberAt, Option.map_eq_some_iff]
  exact exists_and_right

/-- The entry for a child is where the number of the child is found. -/
theorem Records.names_iff
    (records : Records entries served numbering) {parent child : Nat}
    {side : Side} :
    Names numbering parent side child ↔
      parent < numbering.cells.size ∧
        numberAt entries (childPlace parent side) = some child := by
  constructor
  · rintro ⟨cell, found, isChild⟩
    have inside := (Array.getElem?_eq_some_iff.mp found).1
    rcases records.exists_cell inside with ⟨_, value, _, _, found'⟩
    rw [found] at found'
    rw [Option.some.inj found', cellOf_child] at isChild
    exact ⟨inside, isChild⟩
  · rintro ⟨inside, isChild⟩
    rcases records.exists_cell inside with ⟨_, value, _, _, found⟩
    exact ⟨_, found, (cellOf_child entries parent value side).trans isChild⟩

/--
Reading gives every value after the first one a parent, and no
value two of them.
-/
theorem Records.isRooted
    {value : α} (records : Records entries served numbering)
    (first : entryAt entries 0 = some value) :
    IsRooted numbering where
  hasRoot := by
    rw [records.size, ← rank_zero entries]
    exact rank_lt_of_lt first (lt_length_of_entryAt first)
  names_lt := by
    intro parent side child names
    rcases numberAt_eq_some_iff.mp (records.names_iff.mp names).2 with
      ⟨⟨childValue, entry⟩, rfl⟩
    constructor
    · exact records.attached.lt_rank_childPlace side entry
    · rw [records.size]
      exact rank_lt_of_lt entry (lt_length_of_entryAt entry)
  existsUnique_names := by
    intro child notRoot inside
    rcases records.exists_cell inside with ⟨place, childValue, entry, isRank, _⟩
    have behind : 1 ≤ place := by
      apply Nat.one_le_iff_ne_zero.mpr
      rintro rfl
      rw [← isRank] at notRoot
      exact absurd notRoot (Nat.not_succ_le_zero 0)
    have bounded := records.attached place childValue entry
    have isPlace := (eq_childPlace_iff behind).mpr ⟨rfl, rfl⟩
    refine ⟨((place - 1) / 2, sideOf place), ?_, ?_⟩
    · apply records.names_iff.mpr
      rw [← isPlace]
      exact ⟨by omega, numberAt_eq_some_iff.mpr ⟨⟨childValue, entry⟩, isRank⟩⟩
    · rintro ⟨parent, side⟩ names
      rcases numberAt_eq_some_iff.mp (records.names_iff.mp names).2 with
        ⟨⟨value', entry'⟩, isRank'⟩
      have samePlace :=
        place_eq_of_rank_eq entry entry' (isRank.trans isRank'.symm)
      have ⟨sameParent, sameSide⟩ := (eq_childPlace_iff behind).mp samePlace
      rw [sameParent, sameSide]

end Records

/-! ## What lies in the row -/

/-- A subtree lies in the row under the number. -/
def IsFilled (finished : Array (Tree α)) (number : Nat) : Prop :=
  finished.getD number .empty ≠ .empty

/--
A node that takes its children out of the row, the left one first, finds
all that it names.
-/
structure FindsChildren (cell : Cell α) (finished : Array (Tree α)) : Prop where
  left :
    ∀ child, cell.left = some child → (takeOut finished cell.left).1 ≠ .empty
  right :
    ∀ child, cell.right = some child →
      (takeOut (takeOut finished cell.left).2 cell.right).1 ≠ .empty

section Row

variable {finished : Array (Tree α)} {number : Nat}

theorem not_isFilled_replicate (size : Nat) :
    ¬ IsFilled (Array.replicate size (.empty : Tree α)) number := by
  intro filled
  apply filled
  rw [Array.getD_eq_getD_getElem?, Array.getElem?_replicate]
  split_ifs <;> rfl

theorem IsFilled.lt_size (filled : IsFilled finished number) :
    number < finished.size := by
  by_contra outside
  apply filled
  rw [Array.getD_eq_getD_getElem?,
    Array.getElem?_eq_none (Nat.le_of_not_lt outside)]
  rfl

theorem isFilled_takeOut_iff {child : Option Nat} :
    IsFilled (takeOut finished child).2 number ↔
      IsFilled finished number ∧ child ≠ some number := by
  by_cases same : child = some number
  · subst same
    constructor
    · intro filled
      have inside := filled.lt_size
      rw [size_takeOut] at inside
      refine absurd ?_ filled
      rw [takeOut, getD_setIfInBounds finished .empty inside, if_pos rfl]
    · exact fun filled => absurd rfl filled.2
  · rw [IsFilled, getD_takeOut finished same]
    exact (and_iff_left same).symm

theorem finish_eq (built : Nat) (cell : Cell α) (finished : Array (Tree α)) :
    finish built cell finished =
      (takeOut (takeOut finished cell.left).2 cell.right).2.setIfInBounds built
        (node cell.value (takeOut finished cell.left).1
          (takeOut (takeOut finished cell.left).2 cell.right).1) :=
  rfl

/--
The step of building: the node comes into the row, and its children leave it.
-/
theorem isFilled_finish_iff
    {cell : Cell α} {built : Nat} (inside : built < finished.size) :
    IsFilled (finish built cell finished) number ↔
      number = built ∨
        IsFilled finished number ∧ ∀ side, cell.child side ≠ some number := by
  have others :
      IsFilled (takeOut (takeOut finished cell.left).2 cell.right).2 number ↔
        IsFilled finished number ∧ ∀ side, cell.child side ≠ some number := by
    rw [isFilled_takeOut_iff, isFilled_takeOut_iff, and_assoc]
    apply and_congr_right
    intro _
    constructor
    · rintro ⟨notLeft, notRight⟩ side
      cases side with
      | left => exact notLeft
      | right => exact notRight
    · exact fun unnamed => ⟨unnamed .left, unnamed .right⟩
  rw [← others, IsFilled, finish_eq,
    getD_setIfInBounds _ _ (by rw [size_takeOut, size_takeOut]; exact inside)]
  split_ifs with same
  · exact iff_of_true nofun (Or.inl same.symm)
  · rw [or_iff_right (Ne.symm same), IsFilled]

end Row

/-! ## The pass over all nodes -/

/--
The row of finished subtrees when the nodes from number `first` on are built.
-/
def rowFrom (numbering : Numbering α) (first : Nat) : Array (Tree α) :=
  (numbering.cells.toList.zipIdx.drop first).foldr
    (fun (cell, number) => finish number cell)
    (Array.replicate numbering.cells.size .empty)

section Pass

variable {numbering : Numbering α}

theorem rowFrom_zero (numbering : Numbering α) :
    rowFrom numbering 0 = numbering.finishAll :=
  rfl

theorem rowFrom_size (numbering : Numbering α) :
    rowFrom numbering numbering.cells.size =
      Array.replicate numbering.cells.size .empty := by
  rw [rowFrom, List.drop_eq_nil_of_le]
  · rfl
  · rw [List.length_zipIdx, Array.length_toList]

/-- The pass goes from the last node to the first. -/
theorem rowFrom_of_getElem?
    {number : Nat} {cell : Cell α}
    (found : numbering.cells[number]? = some cell) :
    rowFrom numbering number =
      finish number cell (rowFrom numbering (number + 1)) := by
  have listed :
      numbering.cells.toList.zipIdx[number]? = some (cell, number) := by
    rw [List.getElem?_zipIdx, Array.getElem?_toList, found, Nat.zero_add]
    rfl
  rcases List.getElem?_eq_some_iff.mp listed with ⟨inside, isEntry⟩
  rw [rowFrom, List.drop_eq_getElem_cons inside, isEntry]
  rfl

theorem size_finish (number : Nat) (cell : Cell α) (finished : Array (Tree α)) :
    (finish number cell finished).size = finished.size := by
  rw [finish_eq, Array.size_setIfInBounds, size_takeOut, size_takeOut]

theorem size_rowFrom (numbering : Numbering α) (first : Nat) :
    (rowFrom numbering first).size = numbering.cells.size := by
  rw [rowFrom]
  induction numbering.cells.toList.zipIdx.drop first with
  | nil => exact Array.size_replicate
  | cons entry rest induction => exact (size_finish _ _ _).trans induction

/--
The run of building: the row holds the subtrees of the nodes whose parent
is not built yet.
-/
theorem IsRooted.isFilled_rowFrom_iff
    (rooted : IsRooted numbering) {first number : Nat}
    (inside : first ≤ numbering.cells.size) :
    IsFilled (rowFrom numbering first) number ↔
      first ≤ number ∧ number < numbering.cells.size ∧
        ∀ parent side, Names numbering parent side number → parent < first := by
  induction inside using Nat.decreasingInduction with
  | self =>
      rw [rowFrom_size]
      apply iff_of_false (not_isFilled_replicate _)
      rintro ⟨outside, inside, _⟩
      exact absurd inside (Nat.not_lt_of_le outside)
  | of_succ first inside induction =>
      have found := Array.getElem?_eq_getElem inside
      have unnamed_iff :
          (∀ side, (numbering.cells[first]).child side ≠ some number) ↔
            ∀ side, ¬ Names numbering first side number := by
        apply forall_congr'
        intro side
        apply not_congr
        rw [Names, found]
        constructor
        · exact fun isChild => ⟨_, rfl, isChild⟩
        · rintro ⟨cell, same, isChild⟩
          rw [Option.some.inj same]
          exact isChild
      rw [rowFrom_of_getElem? found,
        isFilled_finish_iff (by rw [size_rowFrom]; exact inside), induction,
        unnamed_iff]
      constructor
      · rintro (rfl | ⟨⟨behind, isNumber, parents⟩, unnamed⟩)
        · exact ⟨Nat.le_refl _, inside,
            fun parent side names => (rooted.names_lt _ _ _ names).1⟩
        · refine ⟨Nat.le_of_succ_le behind, isNumber,
            fun parent side names => ?_⟩
          apply Nat.lt_of_le_of_ne
            (Nat.le_of_lt_succ (parents parent side names))
          rintro rfl
          exact unnamed side names
      · rintro ⟨notBefore, isNumber, parents⟩
        rcases Nat.eq_or_lt_of_le notBefore with same | behind
        · exact Or.inl same.symm
        · refine Or.inr ⟨⟨behind, isNumber, ?_⟩, ?_⟩
          · exact fun parent side names =>
              Nat.lt_succ_of_lt (parents parent side names)
          · exact fun side names =>
              absurd (parents first side names) (Nat.lt_irrefl first)

theorem IsRooted.names_unique
    (rooted : IsRooted numbering) {parent parent' child : Nat}
    {side side' : Side}
    (names : Names numbering parent side child)
    (names' : Names numbering parent' side' child) :
    parent = parent' ∧ side = side' := by
  have ⟨behind, inside⟩ := rooted.names_lt parent side child names
  have once := rooted.existsUnique_names child (Nat.one_le_of_lt behind) inside
  have same : (parent, side) = (parent', side') := once.unique names names'
  exact Prod.mk.inj same

/--
A child lies in the row until its parent is built, because it has
no other parent.
-/
theorem IsRooted.isFilled_of_names
    (rooted : IsRooted numbering) {parent child : Nat} {side : Side}
    (names : Names numbering parent side child) :
    IsFilled (rowFrom numbering (parent + 1)) child := by
  have ⟨behind, inside⟩ := rooted.names_lt parent side child names
  apply (rooted.isFilled_rowFrom_iff
    (Nat.le_of_lt (Nat.lt_of_le_of_lt behind inside))).mpr
  refine ⟨behind, inside, fun parent' side' names' => ?_⟩
  have ⟨same, _⟩ := rooted.names_unique names names'
  exact same ▸ Nat.lt_succ_self parent

/--
The right child is still there when the left one is taken, being another one.
-/
theorem IsRooted.findsChildren
    (rooted : IsRooted numbering) {number : Nat} {cell : Cell α}
    (found : numbering.cells[number]? = some cell) :
    FindsChildren cell (rowFrom numbering (number + 1)) := by
  constructor
  · intro child isLeft
    have names : Names numbering number .left child := ⟨cell, found, isLeft⟩
    rw [isLeft]
    exact rooted.isFilled_of_names names
  · intro child isRight
    have names : Names numbering number .right child := ⟨cell, found, isRight⟩
    rw [isRight]
    apply isFilled_takeOut_iff.mpr
    refine ⟨rooted.isFilled_of_names names, fun isLeft => ?_⟩
    have names' : Names numbering number .left child := ⟨cell, found, isLeft⟩
    have ⟨_, sameSide⟩ := rooted.names_unique names names'
    cases sameSide

theorem IsRooted.isFilled_finishAll_iff
    (rooted : IsRooted numbering) {number : Nat} :
    IsFilled numbering.finishAll number ↔ number = 0 := by
  rw [← rowFrom_zero, rooted.isFilled_rowFrom_iff (Nat.zero_le _)]
  constructor
  · rintro ⟨_, inside, parents⟩
    by_contra notRoot
    rcases rooted.existsUnique_names number (Nat.one_le_iff_ne_zero.mpr notRoot)
      inside with
        ⟨⟨parent, side⟩, names, _⟩
    exact absurd (parents parent side names) (Nat.not_lt_zero parent)
  · rintro rfl
    exact ⟨Nat.le_refl 0, rooted.hasRoot,
      fun parent side names => (rooted.names_lt parent side 0 names).1⟩

end Pass

/-! ## Nothing is lost -/

/-- Breadth first, the tree of a list has the values of the list. -/
theorem filterMap_breadthFirst_eq_reduceOption
    {entries : List (Option α)} {tree : Tree α}
    (read : Tree.ofEntries? entries = .ok tree) :
    tree.breadthFirst.filterMap value? = entries.reduceOption := by
  rw [← reduceOption_entries,
    attached_isTreeAt_iff.mp (ofEntries?_eq_ok_iff.mp read),
    reduceOption_dropAbsentEnd]

/--
If the first entry is a value and no value is detached, the entries are
numbered in such a way that every number from 1 on is named once, by a node
with a smaller number.  When the tree is built from the last node to the first,
every node finds the children that it names in the row, and in the end the row
holds nothing but the tree at number 0.  Breadth first, this tree has the
values of the list.
-/
theorem ofEntries?_isRooted_findsChildren
    {entries : List (Option α)} {value : α}
    (root : entryAt entries 0 = some value)
    (noneDetached : ∀ place, ¬ IsDetached entries place) :
    ∃ numbering, Numbering.ofEntries? entries = .ok (some numbering) ∧
      IsRooted numbering ∧
      (∀ number cell, numbering.cells[number]? = some cell →
        FindsChildren cell (rowFrom numbering (number + 1))) ∧
      (∀ number, IsFilled numbering.finishAll number ↔ number = 0) ∧
      Tree.ofEntries? entries = .ok numbering.toTree ∧
      numbering.toTree.breadthFirst.filterMap value? =
        entries.reduceOption := by
  have attached := attached_iff_not_isDetached.mpr noneDetached
  have reading := reading_ofEntries? entries
  generalize result : Numbering.ofEntries? entries = outcome at reading
  cases reading with
  | empty absent =>
      rw [absent 0] at root
      cases root
  | @numbered taken served numbering value first same records =>
      have rooted := records.isRooted ((same 0).trans first)
      have read : Tree.ofEntries? entries = .ok numbering.toTree := by
        rw [Tree.ofEntries?, result]
        rfl
      exact ⟨numbering, rfl, rooted, fun number cell => rooted.findsChildren,
        fun number => rooted.isFilled_finishAll_iff, read,
        filterMap_breadthFirst_eq_reduceOption read⟩
  | @detached place value entry behind least =>
      exact absurd (attached place value entry) (Nat.not_le_of_lt behind)

/--
The node of rank 1 has both children; the absent entries at the end change
nothing.
-/
theorem isRooted_of_bent_tree :
    let entries := [some 10, some 20, none, some 30, some 40, none, none, none]
    entryAt entries 0 = some 10 ∧ (∀ place, ¬ IsDetached entries place) ∧
      ∃ numbering, Numbering.ofEntries? entries = .ok (some numbering) ∧
        (∃! name : Nat × Side, Names numbering name.1 name.2 3) ∧
          (numbering.cells[1]? = some ⟨20, some 2, some 3⟩ ∧
            FindsChildren ⟨20, some 2, some 3⟩ (rowFrom numbering 2)) ∧
          ¬ IsFilled numbering.finishAll 3 ∧
          numbering.toTree.breadthFirst.filterMap value? =
            [10, 20, 30, 40] := by
  intro entries
  have root : entryAt entries 0 = some 10 := rfl
  have noneDetached : ∀ place, ¬ IsDetached entries place :=
    exists_ofEntries?_eq_ok_iff.mp
      ⟨node 10 (node 20 (leaf 30) (leaf 40)) empty, by decide⟩
  have read :
      ∃ waiting,
        Numbering.ofEntries? entries =
          .ok
            (some
              ⟨#[⟨10, some 1, none⟩, ⟨20, some 2, some 3⟩, Cell.bare 30,
                  Cell.bare 40],
                waiting⟩) :=
    ⟨_, rfl⟩
  rcases ofEntries?_isRooted_findsChildren root noneDetached with
    ⟨numbering, read', rooted, finds, filled, _, values⟩
  rcases read with ⟨waiting, read⟩
  cases read.symm.trans read'
  have inside : 3 < 4 := by decide
  exact ⟨root, noneDetached, _, read,
    rooted.existsUnique_names 3 (by decide) inside, ⟨rfl, finds 1 _ rfl⟩,
    mt (filled 3).mp (by decide), values⟩

end Longest.LevelOrder
