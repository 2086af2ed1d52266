import Longest.Increasing.Basic

/-!
# Length from a table

The table holds, for every element, the length of the longest strictly
increasing subsequence that starts with it.  It is filled from the back, so that
the rows of all later elements are final when an element is reached.  The number
of comparisons is quadratic.
-/

namespace Longest.Increasing

variable {α : Type} [Ord α]

/--
An element with the greatest length of an increasing subsequence
that starts with it.
-/
structure Row (α : Type) where
  value : α
  best : Nat

/--
An element alone has length 1; in front of a later row it gains
that row's length.
-/
def bestFrom (value : α) (later : List (Row α)) : Nat :=
  later.foldl
    (fun best row =>
      if Rises value row.value then max best (1 + row.best) else best)
    1

/-- One row for each element, in the order of the list. -/
def table (numbers : List α) : List (Row α) :=
  numbers.foldr (fun value later => ⟨value, bestFrom value later⟩ :: later) []

/-- The lengths of the table. -/
def bestLengths (numbers : List α) : List Nat :=
  (table numbers).map Row.best

/-- The greatest length in the table, and 0 for the empty list. -/
def lengthByTable (numbers : List α) : Nat :=
  (bestLengths numbers).foldl max 0

end Longest.Increasing
