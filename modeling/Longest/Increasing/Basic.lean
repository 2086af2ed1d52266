/-!
# Strictly increasing subsequences

A subsequence of a list is given by its positions, so that equal elements at
different places stay apart.  `IsIncreasing numbers positions` says that the
positions are those of a strictly increasing subsequence, and
`IsLongest numbers length` that no such subsequence is longer than `length`
while one is that long.

Elements are compared by `compare` alone: two of them may compare equal
without being the same.
-/

namespace Longest.Increasing

variable {α : Type} [Ord α]

/-- The first element stands strictly below the second. -/
abbrev Rises (lower upper : α) : Prop :=
  compare lower upper = .lt

/--
The element at the first position stands strictly below the one at the second.
-/
def RisesAt (numbers : List α) (first second : Nat) : Prop :=
  ∃ lower ∈ numbers[first]?, ∃ upper ∈ numbers[second]?, Rises lower upper

/-- The positions of a strictly increasing subsequence, from left to right. -/
structure IsIncreasing (numbers : List α) (positions : List Nat) : Prop where
  /-- Each position is one of the list. -/
  inRange : ∀ position ∈ positions, position < numbers.length
  /-- The positions go up. -/
  ascending : positions.Pairwise (· < ·)
  /-- The elements at them go up as well. -/
  rising : positions.Pairwise (RisesAt numbers)

/-- The greatest length of a strictly increasing subsequence. -/
structure IsLongest (numbers : List α) (length : Nat) : Prop where
  attained :
    ∃ positions, IsIncreasing numbers positions ∧ positions.length = length
  bound :
    ∀ positions, IsIncreasing numbers positions → positions.length ≤ length

/--
The elements at the given positions; a position outside the list
contributes nothing.
-/
def select (numbers : List α) (positions : List Nat) : List α :=
  let items := numbers.toArray
  positions.filterMap (items[·]?)

end Longest.Increasing
