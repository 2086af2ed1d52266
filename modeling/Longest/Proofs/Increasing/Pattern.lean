import Longest.Proofs.Increasing.Choice

/-!
# Only comparisons matter

Two lists have the same pattern if any two positions compare in one as they do
in the other; the elements themselves may be of different types.  Such lists
have the same increasing subsequences, as positions.  The lengths and the choice
of a longest subsequence are determined by these, so they are the same as well,
whatever the elements carry that no comparison sees.
-/

namespace Longest.Increasing

variable {α β : Type} [Ord α] [Ord β]

/-- Any two positions compare in the same way in both lists. -/
structure SamePattern (first : List α) (second : List β) : Prop where
  length : first.length = second.length
  comparison :
    ∀ (position : Nat) (inside : position < first.length) (position' : Nat)
      (inside' : position' < first.length),
      compare first[position] first[position'] =
        compare second[position] second[position']

namespace SamePattern

variable {first : List α} {second : List β}

theorem symm (same : SamePattern first second) : SamePattern second first where
  length := same.length.symm
  comparison position inside position' inside' :=
    (same.comparison position (same.length ▸ inside) position'
      (same.length ▸ inside')).symm

theorem risesAt
    (same : SamePattern first second) {position position' : Nat}
    (rises : RisesAt first position position') :
    RisesAt second position position' := by
  have length := same.length
  rcases rises.lt_length with ⟨inside, inside'⟩
  rw [risesAt_iff (List.getElem?_eq_getElem inside)
    (List.getElem?_eq_getElem inside')] at rises
  rw [risesAt_iff (List.getElem?_eq_getElem (length ▸ inside))
    (List.getElem?_eq_getElem (length ▸ inside'))]
  exact (same.comparison position inside position' inside').symm.trans rises

theorem isIncreasing
    (same : SamePattern first second) {positions : List Nat}
    (increasing : IsIncreasing first positions) :
    IsIncreasing second positions where
  inRange position member := same.length ▸ increasing.inRange position member
  ascending := increasing.ascending
  rising := increasing.rising.imp same.risesAt

theorem isRightmost
    (same : SamePattern first second) {chosen : List Nat}
    (rightmost : IsRightmost first chosen) :
    IsRightmost second chosen where
  increasing := same.isIncreasing rightmost.increasing
  bound positions increasing :=
    rightmost.bound positions (same.symm.isIncreasing increasing)
  notPassed positions increasing :=
    rightmost.notPassed positions (same.symm.isIncreasing increasing)

end SamePattern

variable [Std.TransOrd α] [Std.TransOrd β]

/--
On two lists of the same pattern all four questions have the same answers: the
lengths are equal, and the subsequences found stand at the same positions, those
of a longest one.
-/
theorem longest_lengths_of_samePattern
    {first : List α} {second : List β} (same : SamePattern first second) :
    lengthByTable first = lengthByTable second ∧
      lengthByMemo first = lengthByMemo second ∧
      lengthByPatience first = lengthByPatience second ∧
      longestPositions first = longestPositions second ∧
      IsLongest first (longestPositions first).length ∧
      List.Forall₂ (fun position element => first[position]? = some element)
        (longestPositions first) (longest first) ∧
      List.Forall₂ (fun position element => second[position]? = some element)
        (longestPositions first) (longest second) := by
  have rightmost := isRightmost_longestPositions first
  have rightmost' := same.isRightmost rightmost
  have samePositions : longestPositions second = longestPositions first :=
    rightmost'.longestPositions_eq
  rcases rightmost.isLongest.lengths_eq with ⟨byTable, byMemo, byPatience⟩
  rcases rightmost'.isLongest.lengths_eq with ⟨byTable', byMemo', byPatience'⟩
  refine ⟨byTable.trans byTable'.symm, byMemo.trans byMemo'.symm,
    byPatience.trans byPatience'.symm, samePositions.symm, rightmost.isLongest,
    forall₂_select rightmost.increasing.inRange, ?_⟩
  rw [longest, samePositions]
  exact forall₂_select rightmost'.increasing.inRange

/--
Keyed elements beside numbers in the reversed order; the tags have no
counterpart.
-/
theorem longest_lengths_of_keyed_and_reversed :
    let first : List Keyed :=
      [⟨4, "a"⟩, ⟨1, "b"⟩, ⟨1, "c"⟩, ⟨5, "d"⟩, ⟨4, "e"⟩]
    let second : List (Reversed Nat) := [⟨7⟩, ⟨9⟩, ⟨9⟩, ⟨2⟩, ⟨7⟩]
    Std.TransOrd Keyed ∧ Std.TransOrd (Reversed Nat) ∧
      SamePattern first second ∧ IsLongest first 2 ∧
      longestPositions first = [2, 4] ∧ longestPositions second = [2, 4] ∧
      List.Forall₂ (fun position element => first[position]? = some element)
        [2, 4] (longest first) ∧
      List.Forall₂ (fun position element => second[position]? = some element)
        [2, 4] (longest second) := by
  intro first second
  have same : SamePattern first second := ⟨rfl, by decide⟩
  have found : longestPositions first = [2, 4] := by
    cbv
  rcases longest_lengths_of_samePattern same with
    ⟨_, _, _, samePositions, isLongest, selected, selected'⟩
  have found' := samePositions.symm.trans found
  rw [found] at isLongest selected selected'
  exact ⟨inferInstance, inferInstance, same, isLongest, found, found',
    selected, selected'⟩

end Longest.Increasing
