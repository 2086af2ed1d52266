import Longest.Proofs.Increasing.Agreement
import Mathlib.Order.Bounds.Basic

/-!
# Tails and tops in lockstep

Patience sorting keeps the tails themselves, the search for a longest
subsequence keeps the positions on top of the piles and looks the elements up.
After the same elements both searches end at the same index, and there the one
writes the element and the other its position.

The positions on top are therefore known without either loop: at each index
stands the last position whose longest subsequence has the length that
belongs to the index.
-/

namespace Longest.Increasing

variable {α : Type} [Ord α]

/-- For each pile the position of the card on top. -/
def positionsOnTop (numbers : List α) : Array Nat :=
  (Piles.ofList numbers).tops.map Card.position

/-- The element at a position stands strictly below a value. -/
def standsBelow (numbers : List α) (value : α) (position : Nat) : Bool :=
  numbers[position]?.any fun lower => decide (Rises lower value)

theorem tails_concat_eq_write (read : List α) (value : α) :
    tails (read ++ [value]) =
      write (tails read) (tailIndex (tails read) value) value :=
  List.foldl_concat placeTail #[] value read

/-! ## The last position of each length -/

/--
The card on top of a pile is the last one of the list that belongs on the pile.
-/
theorem Piles.Reflects.exists_top_iff_isGreatest
    {numbers : List α} {piles : Piles α}
    (reflects : Piles.Reflects numbers piles)
    {pile position : Nat} :
    (∃ card, piles.tops[pile]? = some card ∧ card.position = position) ↔
      IsGreatest {earlier | IsLongestTo numbers earlier (pile + 1)}
        position := by
  constructor
  · rintro ⟨card, found, rfl⟩
    refine ⟨reflects.top pile card found, ?_⟩
    intro earlier longest
    rcases reflects.latest earlier pile longest with ⟨card', found', notLater⟩
    rw [found] at found'
    exact Option.some.inj found' ▸ notLater
  · rintro ⟨longest, latest⟩
    rcases reflects.latest position pile longest with ⟨card, found, notLater⟩
    exact ⟨card, found,
      Nat.le_antisymm (latest (reflects.top pile card found)) notLater⟩

variable [Std.TransOrd α]

theorem getElem?_positionsOnTop_iff
    (read rest : List α) (index position : Nat) :
    (positionsOnTop read)[index]? = some position ↔
      IsGreatest
        {earlier |
          earlier < read.length ∧
            IsLongestTo (read ++ rest) earlier (index + 1)}
        position := by
  have sameEnds :
      {earlier |
          earlier < read.length ∧
            IsLongestTo (read ++ rest) earlier (index + 1)} =
        {earlier | IsLongestTo read earlier (index + 1)} := by
    ext earlier
    constructor
    · rintro ⟨inside, longest⟩
      exact (isLongestTo_append_left inside).mp longest
    · intro longest
      exact ⟨longest.lt_length,
        (isLongestTo_append_left longest.lt_length).mpr longest⟩
  rw [sameEnds, ← (Piles.reflects_ofList read).exists_top_iff_isGreatest,
    positionsOnTop, Array.getElem?_map, Option.map_eq_some_iff]

/-! ## The same index -/

/--
A search that looks the elements up ends where the search among the elements
ends.
-/
theorem lowerBound_positionsOnTop (read rest : List α) (value : α) :
    lowerBound (standsBelow (read ++ rest) value) (positionsOnTop read) =
      tailIndex (tails read) value := by
  rw [positionsOnTop, lowerBound_map, tails_eq_map_value, tailIndex_map_value]
  apply lowerBound_congr
  intro card onTop
  have found := (Piles.reflects_ofList read).isSearchable.inRange card onTop
  have inside := (List.getElem?_eq_some_iff.mp found).1
  rw [standsBelow, List.getElem?_append_left inside, found, Option.any_some]

theorem positionsOnTop_concat_eq_write (read : List α) (value : α) :
    positionsOnTop (read ++ [value]) =
      write (positionsOnTop read) (tailIndex (tails read) value)
        read.length := by
  have size := (Piles.reflects_ofList read).size
  have index :
      tailIndex (tails read) value = (Piles.ofList read).pileOf value := by
    rw [tails_eq_map_value, tailIndex_map_value]
  rw [positionsOnTop, Piles.ofList_concat, positionsOnTop, index, ← size]
  exact map_write Card.position (Piles.ofList read).tops _ _

theorem forall₂_positionsOnTop_tails (read rest : List α) :
    List.Forall₂ (fun position tail => (read ++ rest)[position]? = some tail)
      (positionsOnTop read).toList (tails read).toList := by
  rw [positionsOnTop, tails_eq_map_value, Array.toList_map, Array.toList_map,
    List.forall₂_map_left_iff, List.forall₂_map_right_iff, List.forall₂_same]
  intro card onTop
  have found := (Piles.reflects_ofList read).isSearchable.inRange card
    (Array.mem_def.mpr onTop)
  rw [List.getElem?_append_left (List.getElem?_eq_some_iff.mp found).1, found]

/--
The tails and the positions on top of the piles after the same elements,
whatever comes behind them.  For every further element both searches end at the
same index, where the element and its position are written.  So the positions on
top are those of the tails; and at an index stands the last position at which
longest subsequences end that have the length of the index.
-/
theorem positionsOnTop_tails_lockstep (read rest : List α) :
    (∀ value,
        lowerBound (standsBelow (read ++ rest) value) (positionsOnTop read) =
          tailIndex (tails read) value ∧
        positionsOnTop (read ++ [value]) =
          write (positionsOnTop read) (tailIndex (tails read) value)
            read.length ∧
        tails (read ++ [value]) =
          write (tails read) (tailIndex (tails read) value) value) ∧
      (positionsOnTop read).size = (tails read).size ∧
      List.Forall₂ (fun position tail => (read ++ rest)[position]? = some tail)
        (positionsOnTop read).toList (tails read).toList ∧
      ∀ index position,
        (positionsOnTop read)[index]? = some position ↔
          IsGreatest
            {earlier |
              earlier < read.length ∧
                IsLongestTo (read ++ rest) earlier (index + 1)}
            position := by
  have selected := forall₂_positionsOnTop_tails read rest
  refine ⟨?_, selected.length_eq, selected,
    getElem?_positionsOnTop_iff read rest⟩
  intro value
  exact ⟨lowerBound_positionsOnTop read rest value,
    positionsOnTop_concat_eq_write read value, tails_concat_eq_write read value⟩

/-- The twin `d` of `b` has replaced it on top, and so has its position. -/
theorem positionsOnTop_of_twins :
    let numbers : List Keyed := [⟨2, "a"⟩, ⟨4, "b"⟩, ⟨1, "c"⟩, ⟨4, "d"⟩]
    Std.TransOrd Keyed ∧ positionsOnTop numbers = #[2, 3] ∧
      tails numbers = #[⟨1, "c"⟩, ⟨4, "d"⟩] ∧
      IsGreatest
        {earlier | earlier < 4 ∧
          IsLongestTo (numbers ++ [⟨4, "e"⟩]) earlier 2}
        3 := by
  intro numbers
  have onTop : positionsOnTop numbers = #[2, 3] := by
    cbv
  have found : tails numbers = #[⟨1, "c"⟩, ⟨4, "d"⟩] := by
    cbv
  rcases positionsOnTop_tails_lockstep numbers [⟨4, "e"⟩] with
    ⟨_, _, _, isGreatest⟩
  rw [onTop] at isGreatest
  exact ⟨inferInstance, onTop, found, (isGreatest 1 3).mp rfl⟩

end Longest.Increasing
