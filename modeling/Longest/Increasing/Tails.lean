import Longest.Increasing.Basic
import Longest.Search

/-!
# Length by patience sorting

The tails of the elements read so far are the least possible last elements of
increasing subsequences: the one at index `k` ends a subsequence of length
`k + 1`.  A new element goes to the first tail that does not stand below it, or
behind all of them.  Since an element lands on its equal, equal elements never
lengthen the tails.
-/

namespace Longest.Increasing

variable {α : Type} [Ord α]

/-- Where an element goes among the tails. -/
def tailIndex (tails : Array α) (value : α) : Nat :=
  lowerBound (fun tail => decide (Rises tail value)) tails

/-- The tails after one more element. -/
def placeTail (tails : Array α) (value : α) : Array α :=
  let index := tailIndex tails value
  if index = tails.size then
    tails.push value
  else
    tails.setIfInBounds index value

/-- The tails of a whole list. -/
def tails (numbers : List α) : Array α :=
  numbers.foldl placeTail #[]

/--
The length of a longest strictly increasing subsequence, found by
patience sorting.
-/
def lengthByPatience (numbers : List α) : Nat :=
  (tails numbers).size

end Longest.Increasing
