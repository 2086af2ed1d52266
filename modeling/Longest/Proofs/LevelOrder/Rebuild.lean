import Longest.Proofs.LevelOrder.Reading

/-!
# The tree of a numbering

Nodes are built from the last one to the first.  When the nodes from number
`first` on are built, the finished subtrees that still lie in the row are those
at places up to `2 * first`; the places behind belong to children of nodes
already built, and their subtrees were taken out.
-/

namespace Longest.LevelOrder

open Longest.LevelOrder.Numbering

variable {α : Type}

/--
The row of finished subtrees when the nodes from number `first` on are built.
-/
structure IsRow
    (entries : List (Option α)) (first : Nat) (finished : Array (Tree α)) :
    Prop where
  size : finished.size = rank entries entries.length
  built :
    ∀ place value, entryAt entries place = some value →
      first ≤ rank entries place → place ≤ 2 * first →
        IsTreeAt entries place (finished.getD (rank entries place) .empty)

/-! ## Taking subtrees out -/

theorem getD_setIfInBounds
    (finished : Array (Tree α)) (tree : Tree α) {changed number : Nat}
    (inside : changed < finished.size) :
    (finished.setIfInBounds changed tree).getD number .empty =
      if changed = number then tree else finished.getD number .empty := by
  rw [Array.getD_eq_getD_getElem?, Array.getD_eq_getD_getElem?,
    Array.getElem?_setIfInBounds]
  split_ifs with same
  · rfl
  · rfl

theorem size_takeOut (finished : Array (Tree α)) (child : Option Nat) :
    (takeOut finished child).2.size = finished.size := by
  cases child with
  | none => rfl
  | some child => exact Array.size_setIfInBounds

theorem getD_takeOut
    (finished : Array (Tree α)) {child : Option Nat} {number : Nat}
    (different : child ≠ some number) :
    (takeOut finished child).2.getD number .empty =
      finished.getD number .empty := by
  cases child with
  | none => rfl
  | some child =>
      have isOther : child ≠ number :=
        fun same => different (congrArg some same)
      rw [takeOut, Array.getD_eq_getD_getElem?,
        Array.getElem?_setIfInBounds_ne isOther, ← Array.getD_eq_getD_getElem?]

theorem isTreeAt_takeOut
    {entries : List (Option α)} {place : Nat} {finished : Array (Tree α)}
    (built :
      ∀ value, entryAt entries place = some value →
        IsTreeAt entries place (finished.getD (rank entries place) .empty)) :
    IsTreeAt entries place (takeOut finished (numberAt entries place)).1 := by
  cases entry : entryAt entries place with
  | none =>
      rw [numberAt, entry]
      exact .absent entry
  | some value =>
      rw [numberAt, entry]
      exact built value entry

/-- A number belongs to one place only. -/
theorem numberAt_ne_of_place_ne
    {entries : List (Option α)} {place other : Nat} {value : α}
    (entry : entryAt entries other = some value)
    (different : place ≠ other) :
    numberAt entries place ≠ some (rank entries other) := by
  intro isNumber
  rcases Option.map_eq_some_iff.mp isNumber with ⟨_, placeEntry, sameRank⟩
  exact different (place_eq_of_rank_eq placeEntry entry sameRank)

/-! ## Building nodes -/

/--
The step of building: the node before those that are built takes its subtrees,
and the others are not touched.
-/
theorem IsRow.finish
    {entries : List (Option α)} {place : Nat} {value : α}
    {finished : Array (Tree α)}
    (row : IsRow entries (rank entries place + 1) finished)
    (attached : Attached entries)
    (entry : entryAt entries place = some value) :
    IsRow entries (rank entries place)
      (Numbering.finish (rank entries place)
        (cellOf entries (rank entries place) value) finished) := by
  have number_lt := rank_lt_of_lt entry (lt_length_of_entryAt entry)
  have bounds :
      ∀ side,
        2 * rank entries place < childPlace (rank entries place) side ∧
          childPlace (rank entries place) side ≤
            2 * (rank entries place + 1) :=
    fun _ => le_two_mul_of_childPlace rfl
  constructor
  · simp only [Numbering.finish, Array.size_setIfInBounds, size_takeOut]
    exact row.size
  · intro other otherValue otherEntry notBefore unclaimed
    simp only [Numbering.finish]
    rw [getD_setIfInBounds _ _
      (by simp only [size_takeOut, row.size]; exact number_lt)]
    split_ifs with same
    · have isPlace := place_eq_of_rank_eq entry otherEntry same
      subst isPlace
      rw [otherEntry] at entry
      rw [← Option.some.inj entry]
      refine .present otherEntry (isTreeAt_takeOut ?_) (isTreeAt_takeOut ?_)
      · intro leftValue leftEntry
        exact row.built _ leftValue leftEntry
          (attached.lt_rank_childPlace .left leftEntry) (bounds .left).2
      · intro rightValue rightEntry
        have isOther :
            childPlace (rank entries place) .left ≠
              childPlace (rank entries place) .right :=
          Nat.ne_of_lt (Nat.lt_succ_self _)
        rw [getD_takeOut]
        · exact row.built _ rightValue rightEntry
            (attached.lt_rank_childPlace .right rightEntry) (bounds .right).2
        · exact numberAt_ne_of_place_ne rightEntry isOther
    · have large : rank entries place + 1 ≤ rank entries other :=
        Nat.lt_of_le_of_ne notBefore same
      have isOther : ∀ side, childPlace (rank entries place) side ≠ other :=
        fun side => Nat.ne_of_gt (Nat.lt_of_le_of_lt unclaimed (bounds side).1)
      rw [getD_takeOut, getD_takeOut]
      · exact row.built other otherValue otherEntry large (by omega)
      · exact numberAt_ne_of_place_ne otherEntry (isOther .left)
      · exact numberAt_ne_of_place_ne otherEntry (isOther .right)

theorem isRow_replicate (entries : List (Option α)) :
    IsRow entries (rank entries entries.length)
      (Array.replicate (rank entries entries.length) .empty) := by
  constructor
  · exact Array.size_replicate
  · intro place value entry notBefore _
    have before := rank_lt_of_lt entry (lt_length_of_entryAt entry)
    exact absurd before (Nat.not_lt_of_le notBefore)

/-- The run of building, over the nodes from number `first` on. -/
theorem isRow_foldr
    {entries : List (Option α)} (attached : Attached entries)
    (cells : List (Cell α)) (first : Nat)
    (length : first + cells.length = rank entries entries.length)
    (prescribed :
      ∀ offset cell, cells[offset]? = some cell →
        ∃ place value, entryAt entries place = some value ∧
          rank entries place = first + offset ∧
          cell = cellOf entries (first + offset) value) :
    IsRow entries first
      ((cells.zipIdx first).foldr
        (fun (cell, number) => Numbering.finish number cell)
        (Array.replicate (rank entries entries.length) .empty)) := by
  induction cells generalizing first with
  | nil =>
      rw [List.length_nil, Nat.add_zero] at length
      rw [length]
      exact isRow_replicate entries
  | cons cell cells induction =>
      have later :=
        induction (first + 1) (by rw [← length, List.length_cons]; omega) ?_
      · rcases prescribed 0 cell rfl with ⟨place, value, entry, isFirst, rfl⟩
        rw [Nat.add_zero] at isFirst ⊢
        rw [List.zipIdx_cons, List.foldr_cons, ← isFirst]
        rw [← isFirst] at later
        exact later.finish attached entry
      · intro offset cell' found
        have shifted : first + 1 + offset = first + (offset + 1) := by omega
        rw [shifted]
        exact prescribed (offset + 1) cell' found

/-- The tree of a numbering is the one that the entries on record prescribe. -/
theorem Records.isTreeAt_toTree
    {entries : List (Option α)} {served : Nat} {numbering : Numbering α}
    {value : α}
    (records : Records entries served numbering)
    (first : entryAt entries 0 = some value) :
    IsTreeAt entries 0 numbering.toTree := by
  have row := isRow_foldr records.attached numbering.cells.toList 0
    (by rw [Nat.zero_add, Array.length_toList, records.size]) ?_
  · rw [← records.size] at row
    exact row.built 0 value first (Nat.le_refl _) (Nat.le_refl _)
  · intro number cell found
    rw [Array.getElem?_toList] at found
    have inside := (Array.getElem?_eq_some_iff.mp found).1
    rcases records.exists_cell inside with
      ⟨place, value, entry, isNumber, prescribed⟩
    rw [found] at prescribed
    rw [Nat.zero_add]
    exact ⟨place, value, entry, isNumber, Option.some.inj prescribed⟩

end Longest.LevelOrder
