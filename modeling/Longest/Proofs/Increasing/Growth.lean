import Longest.Proofs.Increasing.Choice

/-!
# One more element

An increasing subsequence of a list with one more element either lies in the
list itself, or ends in the new element and continues one of the list.  Of all
longest subsequences the one found ends in the least element.  So it decides: if
the new element stands above its end, the new element continues it and every
length grows by one, and otherwise no length changes.
-/

namespace Longest.Increasing

variable {α : Type} [Ord α]

/-- The subsequence found in a list can be continued by an element. -/
def IsContinuedBy (numbers : List α) (value : α) : Prop :=
  numbers = [] ∨
    ∃ last, (longest numbers).getLast? = some last ∧ Rises last value

/-- The elements at the positions, if there are any, end below an element. -/
def EndsBelow (numbers : List α) (positions : List Nat) (value : α) : Prop :=
  ∀ last ∈ positions.getLast?,
    ∃ lower, numbers[last]? = some lower ∧ Rises lower value

theorem rel_getLast?_of_forall₂
    {relation : Nat → Nat → Prop} {first second : List Nat} {last last' : Nat}
    (related : List.Forall₂ relation first second)
    (ends : first.getLast? = some last) (ends' : second.getLast? = some last') :
    relation last last' := by
  induction related with
  | nil => cases ends
  | cons headRelated tailRelated induction =>
      cases tailRelated with
      | nil =>
          rw [List.getLast?_singleton, Option.some.injEq] at ends ends'
          exact ends ▸ ends' ▸ headRelated
      | cons _ _ =>
          rw [List.getLast?_cons_cons] at ends ends'
          exact induction ends ends'

variable [Std.TransOrd α] {numbers : List α} {value : α}

theorem isIncreasing_concat_length_iff {earlier : List Nat} :
    IsIncreasing (numbers ++ [value]) (earlier ++ [numbers.length]) ↔
      IsIncreasing numbers earlier ∧ EndsBelow numbers earlier value := by
  rw [isIncreasing_concat]
  constructor
  · rintro ⟨increasing, _, joined⟩
    have before : ∀ last ∈ earlier.getLast?, last < numbers.length :=
      fun last isLast => (joined last isLast).1
    refine ⟨(isIncreasing_append_left fun position member => ?_).mp increasing,
      ?_⟩
    · have nonempty := List.getLast?_isSome.mpr (List.ne_nil_of_mem member)
      rcases Option.isSome_iff_exists.mp nonempty with ⟨last, ends⟩
      exact Nat.lt_of_le_of_lt (increasing.le_getLast ends position member)
        (before last ends)
    · intro last isLast
      exact (risesAt_concat_length (before last isLast)).mp
        (joined last isLast).2
  · rintro ⟨increasing, endsBelow⟩
    refine ⟨(isIncreasing_append_left increasing.inRange).mpr increasing,
      by simp, ?_⟩
    intro last isLast
    have before := increasing.inRange last (List.mem_of_getLast? isLast)
    exact ⟨before, (risesAt_concat_length before).mpr (endsBelow last isLast)⟩

/--
A subsequence of the longer list has no part in the new element, or ends in it.
-/
theorem IsIncreasing.concat_cases
    {positions : List Nat}
    (increasing : IsIncreasing (numbers ++ [value]) positions) :
    IsIncreasing numbers positions ∨
      ∃ earlier, positions = earlier ++ [numbers.length] ∧
        IsIncreasing numbers earlier ∧ EndsBelow numbers earlier value := by
  cases positions using List.reverseRecOn with
  | nil => exact Or.inl (isIncreasing_nil numbers)
  | append_singleton earlier last =>
      have inside := increasing.inRange last
        (List.mem_append_right earlier List.mem_cons_self)
      rw [List.length_append, List.length_singleton] at inside
      rcases Nat.lt_or_eq_of_le (Nat.le_of_lt_succ inside) with before | rfl
      · refine Or.inl
          ((isIncreasing_append_left fun position member => ?_).mp increasing)
        exact Nat.lt_of_le_of_lt
          (increasing.le_getLast List.getLast?_concat position member) before
      · exact Or.inr
          ⟨earlier, rfl, isIncreasing_concat_length_iff.mp increasing⟩

namespace IsRightmost

variable {chosen : List Nat}

/--
If the new element continues the rightmost subsequence, the result is
the rightmost one.
-/
theorem concat
    (rightmost : IsRightmost numbers chosen)
    (endsBelow : EndsBelow numbers chosen value) :
    IsRightmost (numbers ++ [value]) (chosen ++ [numbers.length]) where
  increasing :=
    isIncreasing_concat_length_iff.mpr ⟨rightmost.increasing, endsBelow⟩
  bound := by
    intro positions increasing
    rw [List.length_append, List.length_singleton]
    rcases increasing.concat_cases with
      inList | ⟨earlier, rfl, earlierIncreasing, _⟩
    · exact Nat.le_succ_of_le (rightmost.bound positions inList)
    · rw [List.length_append, List.length_singleton]
      exact Nat.succ_le_succ (rightmost.bound earlier earlierIncreasing)
  notPassed := by
    intro positions increasing sameLength
    rw [List.length_append, List.length_singleton] at sameLength
    rcases increasing.concat_cases with
      inList | ⟨earlier, rfl, earlierIncreasing, _⟩
    · have bounded := rightmost.bound positions inList
      rw [sameLength] at bounded
      exact absurd bounded (Nat.not_succ_le_self chosen.length)
    · rw [List.length_append, List.length_singleton,
        Nat.add_right_cancel_iff] at sameLength
      exact List.rel_append
        (rightmost.notPassed earlier earlierIncreasing sameLength)
        (.cons (Nat.le_refl _) .nil)

/--
The rightmost subsequence ends below everything that some longest one
ends below, because the later one of two such ends does not stand above
the earlier one.
-/
theorem endsBelow_of_length_eq
    (rightmost : IsRightmost numbers chosen) {other : List Nat}
    (increasing : IsIncreasing numbers other)
    (sameLength : other.length = chosen.length)
    (endsBelow : EndsBelow numbers other value) :
    EndsBelow numbers chosen value := by
  intro last ends
  have longest := rightmost.isLongest.isLongestTo rightmost.increasing ends
  rw [← sameLength] at longest
  rcases longest.exists_getLast? with ⟨last', ends'⟩
  have longest' :=
    (sameLength ▸ rightmost.isLongest).isLongestTo increasing ends'
  have notLater := rel_getLast?_of_forall₂
    (rightmost.notPassed other increasing sameLength) ends' ends
  have lastAt := List.getElem?_eq_getElem longest.lt_length
  rcases endsBelow last' ends' with ⟨lower, lastAt', rises⟩
  have notRises :=
    mt (risesAt_iff lastAt' lastAt).mpr (longest'.not_risesAt longest notLater)
  exact ⟨_, lastAt, rises.of_not_rises_left notRises⟩

/--
If the new element does not continue the rightmost subsequence,
nothing gets longer.
-/
theorem isLongest_concat_of_not_endsBelow
    (rightmost : IsRightmost numbers chosen)
    (notEndsBelow : ¬ EndsBelow numbers chosen value) :
    IsLongest (numbers ++ [value]) chosen.length := by
  constructor
  · exact ⟨chosen, (isIncreasing_append_left rightmost.increasing.inRange).mpr
      rightmost.increasing, rfl⟩
  · intro positions increasing
    rcases increasing.concat_cases with
      inList | ⟨earlier, rfl, earlierIncreasing, endsBelow⟩
    · exact rightmost.bound positions inList
    · rw [List.length_append, List.length_singleton]
      refine Nat.lt_of_le_of_ne (rightmost.bound earlier earlierIncreasing)
        fun sameLength => ?_
      exact notEndsBelow
        (rightmost.endsBelow_of_length_eq earlierIncreasing sameLength
          endsBelow)

end IsRightmost

theorem isContinuedBy_iff :
    IsContinuedBy numbers value ↔
      EndsBelow numbers (longestPositions numbers) value := by
  have rightmost := isRightmost_longestPositions numbers
  rw [IsContinuedBy, longest, getLast?_select rightmost.increasing.inRange,
    ← rightmost.isLongest.eq_zero_iff, List.length_eq_zero_iff]
  cases ends : (longestPositions numbers).getLast? with
  | none => simp [EndsBelow, List.getLast?_eq_none_iff.mp ends]
  | some last =>
      have nonempty : longestPositions numbers ≠ [] := by
        rintro nothing
        simp [nothing] at ends
      simp [EndsBelow, ends, nonempty]

/--
What one more element changes.  If it stands above the end of the subsequence
found, or is the first element at all, the subsequence found is continued by it
and all lengths grow by one; otherwise all lengths stay as they are.
-/
theorem longest_lengths_concat (numbers : List α) (value : α) :
    (IsContinuedBy numbers value →
        longest (numbers ++ [value]) = longest numbers ++ [value] ∧
          lengthByTable (numbers ++ [value]) = lengthByTable numbers + 1 ∧
          lengthByMemo (numbers ++ [value]) = lengthByMemo numbers + 1 ∧
          lengthByPatience (numbers ++ [value]) =
            lengthByPatience numbers + 1) ∧
      (¬ IsContinuedBy numbers value →
        lengthByTable (numbers ++ [value]) = lengthByTable numbers ∧
          lengthByMemo (numbers ++ [value]) = lengthByMemo numbers ∧
          lengthByPatience (numbers ++ [value]) =
            lengthByPatience numbers) := by
  have rightmost := isRightmost_longestPositions numbers
  rcases rightmost.isLongest.lengths_eq with ⟨byTable, byMemo, byPatience⟩
  rw [isContinuedBy_iff, byTable, byMemo, byPatience]
  constructor
  · intro endsBelow
    have continued := rightmost.concat endsBelow
    have lengths := continued.isLongest.lengths_eq
    rw [List.length_append, List.length_singleton] at lengths
    refine ⟨?_, lengths⟩
    rw [longest, continued.longestPositions_eq, select_append,
      select_append_left rightmost.increasing.inRange,
      select_singleton List.getElem?_concat_length, ← longest]
  · intro notEndsBelow
    exact (rightmost.isLongest_concat_of_not_endsBelow notEndsBelow).lengths_eq

/--
The subsequence found ends in `c`; `d` stands above it and `e` does
not, being its twin.
-/
theorem longest_lengths_of_one_more :
    let numbers : List Keyed := [⟨2, "a"⟩, ⟨1, "b"⟩, ⟨2, "c"⟩]
    Std.TransOrd Keyed ∧ longest numbers = [⟨1, "b"⟩, ⟨2, "c"⟩] ∧
      IsContinuedBy numbers ⟨3, "d"⟩ ∧
      longest (numbers ++ [⟨3, "d"⟩]) = [⟨1, "b"⟩, ⟨2, "c"⟩, ⟨3, "d"⟩] ∧
      ¬ IsContinuedBy numbers ⟨2, "e"⟩ ∧
      lengthByMemo (numbers ++ [⟨2, "e"⟩]) = lengthByMemo numbers := by
  intro numbers
  have found : longest numbers = [⟨1, "b"⟩, ⟨2, "c"⟩] := by
    cbv
  have continued : IsContinuedBy numbers ⟨3, "d"⟩ := by
    rw [IsContinuedBy, found]
    exact Or.inr ⟨⟨2, "c"⟩, rfl, by decide⟩
  have notContinued : ¬ IsContinuedBy numbers ⟨2, "e"⟩ := by
    rw [IsContinuedBy, found]
    rintro (impossible | ⟨last, isLast, rises⟩)
    · exact List.cons_ne_nil _ _ impossible
    · cases isLast
      exact absurd rises (by decide)
  have grown := (longest_lengths_concat numbers ⟨3, "d"⟩).1 continued
  have same := (longest_lengths_concat numbers ⟨2, "e"⟩).2 notContinued
  rw [found] at grown
  exact ⟨inferInstance, found, continued, grown.1, notContinued, same.2.1⟩

end Longest.Increasing
