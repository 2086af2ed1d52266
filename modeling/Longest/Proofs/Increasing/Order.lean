import Longest.Element
import Longest.Increasing.Basic
import Longest.Search
import Mathlib.Tactic.ByContra

/-!
# Lawful comparison and binary search

The order of the elements need not tell all of them apart: it is only assumed
that `compare` is oriented and transitive.  `Rises` is then a strict weak order,
and an array whose items rise is divided by every element into those that stand
below it and those that do not; binary search finds the place of the division.
-/

namespace Longest

/-! ## Where a search ends -/

section Search

variable {α β : Type}

/-- An item that satisfies `below` is preceded by such items only. -/
def Partitioned (below : α → Bool) (items : Array α) : Prop :=
  ∀ (first second : Nat) (earlier later : α), first < second →
    items[first]? = some earlier → items[second]? = some later →
      below later = true → below earlier = true

theorem lowerBoundIn_le
    (below : α → Bool) (items : Array α) (low high : Nat)
    (inside : high ≤ items.size) (ordered : low ≤ high) :
    lowerBoundIn below items low high inside ≤ high := by
  fun_induction lowerBoundIn below items low high inside with
  | case1 low high inside nonempty middle middleBelow induction =>
      exact induction (by omega)
  | case2 low high inside nonempty middle middleNotBelow induction =>
      exact Nat.le_trans (induction (by omega)) (by omega)
  | case3 low high inside finished =>
      exact ordered

theorem lowerBound_le_size (below : α → Bool) (items : Array α) :
    lowerBound below items ≤ items.size :=
  lowerBoundIn_le below items 0 items.size (Nat.le_refl _) (Nat.zero_le _)

/--
The range under search keeps the items below on its left and the others on its
right, so this holds of the place at which it closes.
-/
theorem lowerBoundIn_separates
    (below : α → Bool) (items : Array α) (low high : Nat)
    (inside : high ≤ items.size) (ordered : low ≤ high)
    (partitioned : Partitioned below items)
    (left :
      ∀ (index : Nat) (item : α), items[index]? = some item → index < low →
        below item = true)
    (right :
      ∀ (index : Nat) (item : α), items[index]? = some item → high ≤ index →
        below item = false) :
    ∀ (index : Nat) (item : α), items[index]? = some item →
      (below item = true ↔
        index < lowerBoundIn below items low high inside) := by
  fun_induction lowerBoundIn below items low high inside with
  | case1 low high inside nonempty middle middleBelow induction =>
      refine induction (by omega) ?_ right
      intro index item found index_lt
      rcases Nat.lt_or_eq_of_le (Nat.le_of_lt_succ index_lt) with before | rfl
      · exact partitioned index middle item _ before found
          (Array.getElem?_eq_getElem (by omega)) middleBelow
      · have same : items[middle] = item := by
          simpa [Array.getElem?_eq_getElem (show middle < items.size by omega)]
            using found
        exact same ▸ middleBelow
  | case2 low high inside nonempty middle middleNotBelow induction =>
      refine induction (by omega) left ?_
      intro index item found middle_le
      rw [Bool.eq_false_iff]
      intro itemBelow
      apply middleNotBelow
      rcases Nat.lt_or_eq_of_le middle_le with behind | rfl
      · exact partitioned middle index _ item behind
          (Array.getElem?_eq_getElem (by omega)) found itemBelow
      · have same : items[middle] = item := by
          simpa [Array.getElem?_eq_getElem (show middle < items.size by omega)]
            using found
        exact same ▸ itemBelow
  | case3 low high inside finished =>
      intro index item found
      constructor
      · intro itemBelow
        by_contra behind
        have notBelow := right index item found (by omega)
        rw [notBelow] at itemBelow
        cases itemBelow
      · exact left index item found

/--
In a partitioned array the items before the place found are exactly those below.
-/
theorem below_iff_lt_lowerBound
    {below : α → Bool} {items : Array α}
    (partitioned : Partitioned below items)
    {index : Nat} {item : α} (found : items[index]? = some item) :
    below item = true ↔ index < lowerBound below items := by
  refine lowerBoundIn_separates below items 0 items.size (Nat.le_refl _)
    (Nat.zero_le _) partitioned ?_ ?_ index item found
  · intro index item _ impossible
    exact absurd impossible (Nat.not_lt_zero index)
  · intro index item found outside
    rw [Array.getElem?_eq_none outside] at found
    cases found

theorem lowerBoundIn_map
    (image : α → β) (below : β → Bool) (items : Array α) (low high : Nat)
    (inside : high ≤ (items.map image).size) (inside' : high ≤ items.size) :
    lowerBoundIn below (items.map image) low high inside =
      lowerBoundIn (fun item => below (image item)) items low high inside' := by
  fun_induction lowerBoundIn (fun item => below (image item)) items low high
    inside' with
  | case1 low high inside' nonempty middle middleBelow induction =>
      rw [lowerBoundIn, dif_pos nonempty]
      simp only [Array.getElem_map]
      rw [if_pos middleBelow]
      exact induction _
  | case2 low high inside' nonempty middle middleNotBelow induction =>
      rw [lowerBoundIn, dif_pos nonempty]
      simp only [Array.getElem_map]
      rw [if_neg middleNotBelow]
      exact induction _
  | case3 low high inside' finished =>
      rw [lowerBoundIn, dif_neg finished]

theorem lowerBound_map (image : α → β) (below : β → Bool) (items : Array α) :
    lowerBound below (items.map image) =
      lowerBound (fun item => below (image item)) items := by
  simp only [lowerBound, Array.size_map]
  exact lowerBoundIn_map image below items 0 items.size _ _

/-- A search looks at the items of the array only. -/
theorem lowerBoundIn_congr
    {below below' : α → Bool} {items : Array α}
    (same : ∀ item ∈ items, below item = below' item) (low high : Nat)
    (inside : high ≤ items.size) :
    lowerBoundIn below items low high inside =
      lowerBoundIn below' items low high inside := by
  fun_induction lowerBoundIn below' items low high inside with
  | case1 low high inside nonempty middle middleBelow induction =>
      rw [lowerBoundIn, dif_pos nonempty]
      simp only [same _ (Array.getElem_mem _)]
      rw [if_pos middleBelow]
      exact induction
  | case2 low high inside nonempty middle middleNotBelow induction =>
      rw [lowerBoundIn, dif_pos nonempty]
      simp only [same _ (Array.getElem_mem _)]
      rw [if_neg middleNotBelow]
      exact induction
  | case3 low high inside finished =>
      rw [lowerBoundIn, dif_neg finished]

theorem lowerBound_congr
    {below below' : α → Bool} {items : Array α}
    (same : ∀ item ∈ items, below item = below' item) :
    lowerBound below items = lowerBound below' items :=
  lowerBoundIn_congr same 0 items.size (Nat.le_refl _)

end Search

/-! ## Elements that may compare equal without being the same -/

namespace Increasing

variable {α : Type} [Ord α] [Std.TransOrd α]

theorem Rises.trans
    {first second third : α}
    (lower : Rises first second) (upper : Rises second third) :
    Rises first third :=
  Std.TransCmp.lt_trans lower upper

/-- What is not below `low` rises to nothing to which `low` does not rise. -/
theorem Rises.of_not_rises_left
    {low first upper : α}
    (rises : Rises first upper) (notBelow : ¬ Rises first low) :
    Rises low upper := by
  refine Std.TransCmp.lt_of_isLE_of_lt ?_ rises
  by_contra notLE
  exact notBelow (Std.OrientedCmp.gt_iff_lt.mp (by simpa using notLE))

end Increasing

/-! ## The orders of the wrapped elements are lawful -/

instance {α : Type} [Ord α] [Std.TransOrd α] : Std.TransOrd (Reversed α) where
  eq_swap := by
    intro first second
    show compare second.content first.content =
      (compare first.content second.content).swap
    exact Std.OrientedOrd.eq_swap
  isLE_trans := by
    intro first second third lower upper
    exact Std.TransOrd.isLE_trans (α := α) upper lower

instance : Std.TransOrd Keyed where
  eq_swap := by
    intro first second
    show compare first.key second.key = (compare second.key first.key).swap
    exact Std.OrientedOrd.eq_swap
  isLE_trans := by
    intro first second third lower upper
    exact Std.TransOrd.isLE_trans (α := Int64) lower upper

end Longest
