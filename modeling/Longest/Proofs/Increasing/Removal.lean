import Longest.Proofs.Increasing.Choice
import Mathlib.Data.Nat.Nth
import Mathlib.Data.Set.List

/-!
# Elements that are not selected do not matter

If one list lies in another, its increasing subsequences are the increasing
subsequences of the other that keep within it.  A rightmost one that keeps
within it is therefore the rightmost one there as well.  In particular any
elements outside of the subsequence found can be removed, and the same
subsequence is found again, even though its elements stand at other positions.
-/

namespace Longest.Increasing

variable {α : Type}

/-! ## Lists that lie in each other -/

/--
The elements of one list stand in another one, in the same order, at
the places given.
-/
structure LiesIn (smaller larger : List α) (place : Nat → Nat) : Prop where
  same : ∀ position : Nat, smaller[position]? = larger[place position]?
  ordered : StrictMono place

namespace LiesIn

variable {smaller larger : List α} {place : Nat → Nat}

theorem place_lt_length_iff
    (lies : LiesIn smaller larger place) {position : Nat} :
    place position < larger.length ↔ position < smaller.length := by
  rw [← Nat.not_le, ← Nat.not_le, ← List.getElem?_eq_none_iff,
    ← List.getElem?_eq_none_iff, lies.same]

theorem select_map (lies : LiesIn smaller larger place) (positions : List Nat) :
    select larger (positions.map place) = select smaller positions := by
  simp only [select, List.getElem?_toArray, List.filterMap_map,
    Function.comp_def, lies.same]

variable [Ord α]

/--
The increasing subsequences of the smaller list are those of the
larger one within it.
-/
theorem isIncreasing_map_iff
    (lies : LiesIn smaller larger place) {positions : List Nat} :
    IsIncreasing larger (positions.map place) ↔
      IsIncreasing smaller positions := by
  have sameRising :
      ∀ first second : Nat,
        RisesAt larger (place first) (place second) ↔
          RisesAt smaller first second := by
    simp [RisesAt, lies.same]
  constructor
  · rintro ⟨inRange, ascending, rising⟩
    rw [List.pairwise_map] at ascending rising
    refine ⟨?_, ascending.imp lies.ordered.lt_iff_lt.mp,
      rising.imp (sameRising _ _).mp⟩
    intro position member
    exact lies.place_lt_length_iff.mp (inRange _ (List.mem_map_of_mem member))
  · rintro ⟨inRange, ascending, rising⟩
    refine ⟨?_,
      List.pairwise_map.mpr (ascending.imp lies.ordered.lt_iff_lt.mpr),
      List.pairwise_map.mpr (rising.imp (sameRising _ _).mpr)⟩
    intro position member
    rcases List.mem_map.mp member with ⟨origin, originMember, rfl⟩
    exact lies.place_lt_length_iff.mpr (inRange origin originMember)

/--
A rightmost subsequence that keeps within the smaller list is the
rightmost one there.
-/
theorem isRightmost_of_map
    (lies : LiesIn smaller larger place) {chosen : List Nat}
    (rightmost : IsRightmost larger (chosen.map place)) :
    IsRightmost smaller chosen where
  increasing := lies.isIncreasing_map_iff.mp rightmost.increasing
  bound := by
    intro positions increasing
    have bounded := rightmost.bound _ (lies.isIncreasing_map_iff.mpr increasing)
    rwa [List.length_map, List.length_map] at bounded
  notPassed := by
    intro positions increasing sameLength
    have notPassed :=
      rightmost.notPassed _ (lies.isIncreasing_map_iff.mpr increasing)
        (by rw [List.length_map, List.length_map, sameLength])
    rw [List.forall₂_map_left_iff, List.forall₂_map_right_iff] at notPassed
    exact notPassed.imp fun _ _ => lies.ordered.le_iff_le.mp

/--
In a smaller list that keeps all selected elements the same ones are selected.
-/
theorem longest_eq
    [Std.TransOrd α] (lies : LiesIn smaller larger place)
    (kept : ∀ position ∈ longestPositions larger, position ∈ Set.range place) :
    longest smaller = longest larger := by
  have rightmost := isRightmost_longestPositions larger
  rcases (Set.range_list_map place).ge kept with ⟨chosen, isImage⟩
  rw [← isImage] at rightmost
  rw [longest, (lies.isRightmost_of_map rightmost).longestPositions_eq,
    ← lies.select_map, isImage, ← longest]

end LiesIn

/-! ## Removing positions -/

/-- The list that is left when the elements at some positions are removed. -/
def without (removed : Finset Nat) (numbers : List α) : List α :=
  (numbers.zipIdx.filter fun (_, position) => position ∉ removed).map Prod.fst

theorem without_concat (removed : Finset Nat) (numbers : List α) (value : α) :
    without removed (numbers ++ [value]) =
      without removed numbers ++
        if numbers.length ∈ removed then [] else [value] := by
  rw [without, List.zipIdx_append, List.filter_append, List.map_append,
    ← without]
  split_ifs with isRemoved <;> simp [isRemoved]

theorem length_without (removed : Finset Nat) (numbers : List α) :
    (without removed numbers).length =
      Nat.count (· ∉ removed) numbers.length := by
  induction numbers using List.reverseRecOn with
  | nil => rfl
  | append_singleton numbers value induction =>
      rw [without_concat, List.length_append, induction, List.length_append,
        List.length_singleton, Nat.count_succ]
      by_cases isRemoved : numbers.length ∈ removed <;> simp [isRemoved]

/-- There is no end to the positions that are not removed. -/
theorem infinite_notMem (removed : Finset Nat) :
    (Set.ofPred (· ∉ removed)).Infinite :=
  removed.finite_toSet.infinite_compl

/--
What is left stands, in the original list, at the positions that
are not removed.
-/
theorem getElem?_without
    (removed : Finset Nat) (numbers : List α) (position : Nat) :
    (without removed numbers)[position]? =
      numbers[Nat.nth (· ∉ removed) position]? := by
  have counted := Nat.count_nth_of_infinite (infinite_notMem removed) position
  induction numbers using List.reverseRecOn with
  | nil => rfl
  | append_singleton numbers value induction =>
      rcases Nat.lt_trichotomy (Nat.nth (· ∉ removed) position)
        numbers.length with
          before | here | behind
      · have inside : position < (without removed numbers).length := by
          rw [length_without, ← counted]
          exact Nat.count_strict_mono
            (Nat.nth_mem_of_infinite (infinite_notMem removed) position) before
        rw [without_concat, List.getElem?_append_left inside,
          List.getElem?_append_left before, induction]
      · have isKept : numbers.length ∉ removed :=
          here ▸ Nat.nth_mem_of_infinite (infinite_notMem removed) position
        have isLast : position = (without removed numbers).length := by
          rw [length_without, ← here, counted]
        rw [without_concat, if_neg isKept, here, isLast,
          List.getElem?_concat_length, List.getElem?_concat_length]
      · have outside :
            (numbers ++ [value]).length ≤ Nat.nth (· ∉ removed) position := by
          simpa using behind
        have outsideLeft :
            (without removed (numbers ++ [value])).length ≤ position := by
          rw [length_without]
          exact Nat.le_nth_of_count_le outside
        rw [List.getElem?_eq_none outside, List.getElem?_eq_none outsideLeft]

theorem liesIn_without (removed : Finset Nat) (numbers : List α) :
    LiesIn (without removed numbers) numbers (Nat.nth (· ∉ removed)) where
  same := getElem?_without removed numbers
  ordered := Nat.nth_strictMono (infinite_notMem removed)

/--
Elements at positions that are not selected can be removed, in any number and
from anywhere: what is found in the list is a longest subsequence, the elements
at the selected positions, and the same elements are found in what is left.
-/
theorem longest_without
    [Ord α] [Std.TransOrd α] (numbers : List α) (removed : Finset Nat)
    (notSelected : ∀ position ∈ longestPositions numbers, position ∉ removed) :
    IsLongest numbers (longestPositions numbers).length ∧
      List.Forall₂ (fun position element => numbers[position]? = some element)
        (longestPositions numbers) (longest numbers) ∧
      longest (without removed numbers) = longest numbers := by
  rcases longestPositions_isLongest numbers with ⟨increasing, isLongest⟩
  refine ⟨isLongest, forall₂_select increasing.inRange, ?_⟩
  apply (liesIn_without removed numbers).longest_eq
  intro position selected
  rw [Nat.range_nth_of_infinite (infinite_notMem removed)]
  exact notSelected position selected

/--
Removed are `a`, to which `b` is linked, `c`, a tail for a while, and `g`,
the twin of `e`.
-/
theorem longest_without_competitors :
    let numbers : List Keyed :=
      [⟨1, "a"⟩, ⟨2, "b"⟩, ⟨4, "c"⟩, ⟨1, "d"⟩, ⟨2, "e"⟩, ⟨3, "f"⟩, ⟨2, "g"⟩]
    let kept : List Keyed := [⟨2, "b"⟩, ⟨1, "d"⟩, ⟨2, "e"⟩, ⟨3, "f"⟩]
    Std.TransOrd Keyed ∧ longestPositions numbers = [3, 4, 5] ∧
      IsLongest numbers 3 ∧
      List.Forall₂ (fun position element => numbers[position]? = some element)
        [3, 4, 5] (longest numbers) ∧
      without {0, 2, 6} numbers = kept ∧ longest kept = longest numbers := by
  intro numbers kept
  have chosen : longestPositions numbers = [3, 4, 5] := by
    cbv
  have left : without {0, 2, 6} numbers = kept := by
    rfl
  have notSelected :
      ∀ position ∈ longestPositions numbers,
        position ∉ ({0, 2, 6} : Finset Nat) := by
    rw [chosen]
    decide
  rcases longest_without numbers {0, 2, 6} notSelected with
    ⟨isLongest, selected, same⟩
  rw [chosen] at isLongest selected
  rw [left] at same
  exact ⟨inferInstance, chosen, isLongest, selected, left, same⟩

end Longest.Increasing
