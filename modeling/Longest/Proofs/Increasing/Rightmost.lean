import Longest.Proofs.Increasing.Reconstruction

/-!
# Which longest subsequence is found

Of all longest increasing subsequences the one found is the rightmost in
position and the smallest in value, at every one of its places.  The walk starts
at the last position that ends a longest subsequence, and each link leads to the
last earlier position whose longest subsequence is shorter by one.  A competitor
of the same length passes through positions of the same kinds, so it never gets
ahead; and of two positions of one kind the later one has no greater element.
-/

namespace Longest.Increasing

variable {α : Type} [Ord α]

/--
The chosen position is no earlier than the other one, and its
element is no greater.
-/
structure YieldsTo (numbers : List α) (other chosen : Nat) : Prop where
  notLater : other ≤ chosen
  notGreater :
    ∃ lower ∈ numbers[chosen]?,
      ∃ upper ∈ numbers[other]?, (compare lower upper).isLE = true

/-- A longest subsequence is a longest one to its own last position. -/
theorem IsLongest.isLongestTo
    {numbers : List α} {positions : List Nat} {last : Nat}
    (longest : IsLongest numbers positions.length)
    (increasing : IsIncreasing numbers positions)
    (ends : positions.getLast? = some last) :
    IsLongestTo numbers last positions.length :=
  ⟨⟨positions, increasing, ends, rfl⟩, fun other otherIncreasing _ =>
    longest.bound other otherIncreasing⟩

variable [Std.TransOrd α] {numbers : List α}

theorem IsLongestTo.yieldsTo
    {other chosen length : Nat}
    (longest : IsLongestTo numbers other length)
    (longest' : IsLongestTo numbers chosen length)
    (notLater : other ≤ chosen) :
    YieldsTo numbers other chosen := by
  have otherAt := List.getElem?_eq_getElem longest.lt_length
  have chosenAt := List.getElem?_eq_getElem longest'.lt_length
  refine ⟨notLater, _, chosenAt, _, otherAt, ?_⟩
  have notRises := mt (risesAt_iff otherAt chosenAt).mpr
    (longest.not_risesAt longest' notLater)
  by_contra notLE
  exact notRises (Std.OrientedCmp.gt_iff_lt.mp (by simpa using notLE))

theorem IsLongestTo.exists_getLast?
    {positions : List Nat} {last : Nat}
    (longest : IsLongestTo numbers last positions.length) :
    ∃ last', positions.getLast? = some last' := by
  have nonempty :=
    longest.bound [last] (isIncreasing_singleton longest.lt_length) rfl
  exact Option.isSome_iff_exists.mp
    (List.getLast?_isSome.mpr (List.ne_nil_of_length_pos nonempty))

/--
Without its last position a longest subsequence is a longest one to the
position before.
-/
theorem IsLongestTo.of_concat
    {positions : List Nat} {previous last : Nat}
    (increasing : IsIncreasing numbers (positions ++ [last]))
    (longest : IsLongestTo numbers last (positions ++ [last]).length)
    (ends : positions.getLast? = some previous) :
    IsLongestTo numbers previous positions.length := by
  rcases isIncreasing_concat.mp increasing with ⟨earlier, inside, joined⟩
  refine ⟨⟨positions, earlier, ends, rfl⟩, ?_⟩
  intro other otherIncreasing otherEnds
  have continued : IsIncreasing numbers (other ++ [last]) := by
    refine isIncreasing_concat.mpr ⟨otherIncreasing, inside, ?_⟩
    intro previous' isLast
    rw [Option.mem_unique isLast otherEnds]
    exact joined previous ends
  simpa using longest.bound _ continued (by simp)

/--
A longest subsequence that ends no later than the walk starts stays behind it
all the way.  The position before its last one is of the same kind as the one to
which the first link leads, and hence no later either.
-/
theorem Piles.Reflects.followLinks_yieldsTo
    {piles : Piles α} (reflects : Piles.Reflects numbers piles)
    {position last : Nat} {positions : List Nat}
    (increasing : IsIncreasing numbers positions)
    (ends : positions.getLast? = some last)
    (longest : IsLongestTo numbers last positions.length)
    (longest' : IsLongestTo numbers position positions.length)
    (notLater : last ≤ position) :
    List.Forall₂ (YieldsTo numbers) positions
      (followLinks piles.links position []) := by
  induction position using Nat.strong_induction_on
    generalizing last positions with
  | h position induction =>
      have yields := longest.yieldsTo longest' notLater
      rcases List.getLast?_eq_some_iff.mp ends with ⟨earlier, rfl⟩
      have sameLength : (earlier ++ [last]).length = earlier.length + 1 :=
        List.length_append
      rcases reflects.followLinks_cases longest'.lt_length with
        ⟨longestAlone, single⟩ |
          ⟨previous, length, precedes, longestBefore, longer, latest,
            continued⟩
      · have alone := longest'.unique longestAlone
        have nothingBefore : earlier = [] := by simpa using alone
        rw [nothingBefore, single]
        exact .cons yields .nil
      · rw [continued]
        have isLength := longest'.unique longer
        rw [sameLength, Nat.add_right_cancel_iff] at isLength
        subst isLength
        rcases longestBefore.exists_getLast? with ⟨last', endsBefore⟩
        have longestTo := IsLongestTo.of_concat increasing longest endsBefore
        rcases isIncreasing_concat.mp increasing with
          ⟨earlierIncreasing, _, joined⟩
        have before := Nat.lt_of_lt_of_le (joined last' endsBefore).1 notLater
        exact List.rel_append
          (induction previous precedes.1 earlierIncreasing endsBefore
            longestTo longestBefore (latest last' before longestTo))
          (.cons yields .nil)

/--
Every longest subsequence yields to the one found: the walk starts at the last
position that ends a longest one.
-/
theorem forall₂_yieldsTo_longestPositions
    {positions : List Nat} (increasing : IsIncreasing numbers positions)
    (sameLength : positions.length = (longestPositions numbers).length) :
    List.Forall₂ (YieldsTo numbers) positions (longestPositions numbers) := by
  have isLongest := (longestPositions_isLongest numbers).2
  rw [← sameLength] at isLongest
  rcases longestPositions_cases numbers with
    ⟨nothing, noneLonger⟩ | ⟨last, length, walked, longest, longestTo, latest⟩
  · rw [nothing, List.eq_nil_of_length_eq_zero (isLongest.unique noneLonger)]
    exact .nil
  · obtain rfl := isLongest.unique longest
    rcases longestTo.exists_getLast? with ⟨last', ends⟩
    have longestTo' := isLongest.isLongestTo increasing ends
    rw [walked]
    exact (Piles.reflects_ofList numbers).followLinks_yieldsTo increasing ends
      longestTo' longestTo (latest last' longestTo')

/--
The subsequence found is a longest one and, among all longest ones, the
rightmost in position and the smallest in value at every place.
-/
theorem longestPositions_rightmost_smallest (numbers : List α) :
    IsIncreasing numbers (longestPositions numbers) ∧
      IsLongest numbers (longestPositions numbers).length ∧
      List.Forall₂ (fun position element => numbers[position]? = some element)
        (longestPositions numbers) (longest numbers) ∧
      ∀ positions, IsIncreasing numbers positions →
        positions.length = (longestPositions numbers).length →
          List.Forall₂ (YieldsTo numbers) positions
            (longestPositions numbers) := by
  rcases longestPositions_isLongest numbers with ⟨increasing, isLongest⟩
  refine ⟨increasing, isLongest, forall₂_select increasing.inRange, ?_⟩
  intro positions competes sameLength
  exact forall₂_yieldsTo_longestPositions competes sameLength

/--
Two subsequences of length 3 that share no position, not even a
greatest element.
-/
theorem longestPositions_of_competitors :
    let numbers : List Keyed :=
      [⟨1, "a"⟩, ⟨2, "b"⟩, ⟨4, "c"⟩, ⟨1, "d"⟩, ⟨2, "e"⟩, ⟨3, "f"⟩]
    Std.TransOrd Keyed ∧ longestPositions numbers = [3, 4, 5] ∧
      IsLongest numbers 3 ∧ IsIncreasing numbers [0, 1, 2] ∧
      List.Forall₂ (YieldsTo numbers) [0, 1, 2] [3, 4, 5] := by
  intro numbers
  have chosen : longestPositions numbers = [3, 4, 5] := by
    cbv
  have increasing : IsIncreasing numbers [0, 1, 2] := by
    constructor
    · decide
    · decide
    · unfold RisesAt
      decide
  rcases longestPositions_rightmost_smallest numbers with
    ⟨_, isLongest, _, yieldsTo⟩
  rw [chosen] at isLongest yieldsTo
  exact ⟨inferInstance, chosen, isLongest, increasing,
    yieldsTo [0, 1, 2] increasing rfl⟩

end Longest.Increasing
