import Longest.Proofs.Increasing.Agreement
import Longest.Proofs.Increasing.Memo
import Longest.Proofs.Increasing.Rightmost

/-!
# The results without the algorithms

All three lengths are the greatest length of an increasing subsequence.  The
subsequence found is determined as well: it is a longest one that no other
longest one passes at any place, and there is no second one of this kind.  How
the results depend on the list is therefore a question about increasing
subsequences alone.
-/

namespace Longest.Increasing

variable {α : Type} [Ord α]

/--
A longest increasing subsequence that no other one of its length
passes at any place.
-/
structure IsRightmost (numbers : List α) (chosen : List Nat) : Prop where
  increasing : IsIncreasing numbers chosen
  bound :
    ∀ positions, IsIncreasing numbers positions →
      positions.length ≤ chosen.length
  notPassed :
    ∀ positions, IsIncreasing numbers positions →
      positions.length = chosen.length → List.Forall₂ (· ≤ ·) positions chosen

theorem IsRightmost.isLongest
    {numbers : List α} {chosen : List Nat}
    (rightmost : IsRightmost numbers chosen) :
    IsLongest numbers chosen.length :=
  ⟨⟨chosen, rightmost.increasing, rfl⟩, rightmost.bound⟩

/-- Of two lists neither of which passes the other, each is the other. -/
theorem eq_of_forall₂_le
    {first second : List Nat} (notPassed : List.Forall₂ (· ≤ ·) first second)
    (notPassed' : List.Forall₂ (· ≤ ·) second first) :
    first = second := by
  induction notPassed with
  | nil => rfl
  | cons headLe _ induction =>
      cases notPassed' with
      | cons headLe' tailLe' =>
          rw [Nat.le_antisymm headLe headLe', induction tailLe']

theorem IsRightmost.unique
    {numbers : List α} {chosen chosen' : List Nat}
    (rightmost : IsRightmost numbers chosen)
    (rightmost' : IsRightmost numbers chosen') :
    chosen = chosen' := by
  have sameLength := rightmost.isLongest.unique rightmost'.isLongest
  exact eq_of_forall₂_le
    (rightmost'.notPassed chosen rightmost.increasing sameLength)
    (rightmost.notPassed chosen' rightmost'.increasing sameLength.symm)

variable [Std.TransOrd α]

/--
The subsequence found is nowhere passed, as every other longest one yields to
it.
-/
theorem isRightmost_longestPositions (numbers : List α) :
    IsRightmost numbers (longestPositions numbers) := by
  rcases longestPositions_isLongest numbers with ⟨increasing, isLongest⟩
  refine ⟨increasing, isLongest.bound, ?_⟩
  intro positions competes sameLength
  exact (forall₂_yieldsTo_longestPositions competes sameLength).imp
    fun _ _ yields => yields.notLater

theorem IsRightmost.longestPositions_eq
    {numbers : List α} {chosen : List Nat}
    (rightmost : IsRightmost numbers chosen) :
    longestPositions numbers = chosen :=
  (isRightmost_longestPositions numbers).unique rightmost

theorem IsLongest.lengths_eq
    {numbers : List α} {length : Nat} (longest : IsLongest numbers length) :
    lengthByTable numbers = length ∧ lengthByMemo numbers = length ∧
      lengthByPatience numbers = length :=
  ⟨(isLongest_lengthByTable numbers).unique longest,
    (isLongest_lengthByMemo numbers).unique longest,
    (isLongest_lengthByPatience numbers).unique longest⟩

end Longest.Increasing
