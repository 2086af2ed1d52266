/-!
# Binary search

`lowerBound below items` halves the range of candidate places until one is left.
If all the items that satisfy `below` stand before all those that do not, the
result is the number of the former: the first place whose item is not below, or
the size if there is no such item.
-/

namespace Longest

variable {α : Type}

/-- Halves `[low, high)` until it is empty; `high` never leaves the array. -/
def lowerBoundIn (below : α → Bool) (items : Array α) (low high : Nat)
    (inside : high ≤ items.size) : Nat :=
  if nonempty : low < high then
    let middle := (low + high) / 2
    if below items[middle] then
      lowerBoundIn below items (middle + 1) high inside
    else
      lowerBoundIn below items low middle (by omega)
  else
    low
termination_by high - low

/--
The first place whose item does not satisfy `below`, in an array
partitioned by `below`.
-/
def lowerBound (below : α → Bool) (items : Array α) : Nat :=
  lowerBoundIn below items 0 items.size (Nat.le_refl _)

end Longest
