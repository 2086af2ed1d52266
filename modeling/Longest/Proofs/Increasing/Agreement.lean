import Longest.Increasing.Tails
import Longest.Proofs.Increasing.Piles
import Longest.Proofs.Increasing.Table

/-!
# Patience sorting agrees with the table

The tails are the values on top of the piles: both searches end at the same
place, so the two loops run side by side.  The number of piles and the greatest
number of the table are each the greatest length of an increasing subsequence.
-/

namespace Longest.Increasing

section Write

variable {β γ : Type}

/-- Replaces the item at an index, or adds one behind the last. -/
def write (items : Array β) (index : Nat) (item : β) : Array β :=
  if index = items.size then items.push item else items.setIfInBounds index item

theorem map_write (image : β → γ) (items : Array β) (index : Nat) (item : β) :
    (write items index item).map image =
      write (items.map image) index (image item) := by
  rw [write, write, Array.size_map]
  split_ifs
  · rw [Array.map_push]
  · rw [Array.map_setIfInBounds]

end Write

variable {α : Type} [Ord α]

/-- A search among the values of the tops is a search among the tops. -/
theorem tailIndex_map_value (piles : Piles α) (value : α) :
    tailIndex (piles.tops.map Card.value) value = piles.pileOf value :=
  lowerBound_map Card.value (fun tail => decide (Rises tail value)) piles.tops

theorem placeTail_map_value (piles : Piles α) (value : α) :
    placeTail (piles.tops.map Card.value) value =
      (piles.deal value).tops.map Card.value :=
  calc
    placeTail (piles.tops.map Card.value) value =
        write (piles.tops.map Card.value) (piles.pileOf value) value := by
      rw [← tailIndex_map_value]
      rfl
    _ = (piles.deal value).tops.map Card.value :=
      (map_write Card.value piles.tops (piles.pileOf value)
        ⟨piles.links.size, value⟩).symm

/-- After any elements the tails are the values on top of the piles. -/
theorem tails_eq_map_value (numbers : List α) :
    tails numbers = (Piles.ofList numbers).tops.map Card.value := by
  induction numbers using List.reverseRecOn with
  | nil => exact Array.map_empty.symm
  | append_singleton numbers value induction =>
      rw [Piles.ofList_concat, ← placeTail_map_value, ← induction]
      exact List.foldl_concat placeTail #[] value numbers

variable [Std.TransOrd α]

theorem isLongest_lengthByPatience (numbers : List α) :
    IsLongest numbers (lengthByPatience numbers) := by
  rw [lengthByPatience, tails_eq_map_value, Array.size_map]
  exact (Piles.reflects_ofList numbers).isLongest_size

/-- Patience sorting and the table find the same length. -/
theorem lengthByPatience_eq_lengthByTable (numbers : List α) :
    lengthByPatience numbers = lengthByTable numbers :=
  (isLongest_lengthByPatience numbers).unique (isLongest_lengthByTable numbers)

/--
In the reversed order 5, 4, 2 and 1 rise, and the 3 and the 1 that are
met twice do not.
-/
theorem lengthByPatience_of_reversed :
    let numbers : List (Reversed Nat) := [⟨3⟩, ⟨5⟩, ⟨3⟩, ⟨4⟩, ⟨1⟩, ⟨2⟩, ⟨1⟩]
    Std.TransOrd (Reversed Nat) ∧ lengthByPatience numbers = 4 ∧
      lengthByTable numbers = 4 := by
  intro numbers
  have byPatience : lengthByPatience numbers = 4 := by
    cbv
  exact ⟨inferInstance, byPatience,
    (lengthByPatience_eq_lengthByTable numbers).symm.trans byPatience⟩

end Longest.Increasing
