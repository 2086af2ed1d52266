import Longest.Proofs.Increasing.Recursion

/-!
# What memoised search relies on and guarantees

A search may begin with any memo whose lengths are greatest lengths, in whatever
pattern it is filled.  It ends, finds the greatest length from its start and
enters it; what was known and what stands in front of the start stays as it was,
and the memo can be relied on by the next search.

So neither a length found nor the finished memo depends on the order in which
positions are started.
-/

namespace Longest.Increasing

variable {α : Type} [Ord α]

/--
There is room for every position, and what is remembered are greatest lengths.
-/
structure Memo.IsCorrect (numbers : List α) (memo : Memo) : Prop where
  size : memo.size = numbers.length
  correct :
    ∀ position length : Nat, memo[position]? = some (some length) →
      IsLongestFrom numbers position length

/-- What a search from `start` that begins with `memo` has to end with. -/
structure KeepsContract (numbers : List α) (start : Nat) (memo : Memo)
    (result : Nat × Memo) : Prop where
  /-- The greatest length is found. -/
  longest : start < numbers.length → IsLongestFrom numbers start result.1
  /-- Nothing is found beyond the end. -/
  beyond : numbers.length ≤ start → result.1 = 0
  /-- The length found is remembered. -/
  remembered : start < numbers.length → result.2[start]? = some (some result.1)
  /--
  What was known stays known, and what stands in front of the start is left
  alone.
  -/
  grows : memo.GrowsFrom start result.2
  /-- The next search may rely on the memo as well. -/
  correct : result.2.IsCorrect numbers

section Lawful

variable [Std.TransOrd α] {numbers : List α}

/--
The greatest lengths are those in the table, so this is the agreement
of a memo with it.
-/
theorem Memo.isCorrect_iff_agrees {memo : Memo} :
    memo.IsCorrect numbers ↔ memo.Agrees numbers := by
  constructor
  · rintro ⟨size, correct⟩
    refine ⟨size, ?_⟩
    intro position length known
    have entry := Memo.known?_eq_some_iff.mp known
    have inside := (Array.getElem?_eq_some_iff.mp entry).1
    rw [size, ← length_bestLengths numbers] at inside
    have best := List.getElem?_eq_getElem inside
    rw [best,
      (isLongestFrom_of_getElem?_bestLengths best).unique
        (correct position length entry)]
  · rintro ⟨size, known⟩
    refine ⟨size, ?_⟩
    intro position length entry
    exact isLongestFrom_of_getElem?_bestLengths
      (known position length (Memo.known?_eq_some_iff.mpr entry))

theorem keepsContract_lengthFrom
    {memo : Memo} (correct : memo.IsCorrect numbers) (start : Nat) :
    KeepsContract numbers start memo (lengthFrom numbers start memo) := by
  rcases found_lengthFrom (Memo.isCorrect_iff_agrees.mp correct) start with
    ⟨found, known⟩
  have best :
      start < numbers.length →
        (bestLengths numbers)[start]? =
          some (lengthFrom numbers start memo).1 := by
    intro inside
    rw [← length_bestLengths numbers] at inside
    rw [found.length, List.getD_eq_getElem?_getD,
      List.getElem?_eq_getElem inside, Option.getD_some]
  refine ⟨?_, ?_, ?_, found.grows, Memo.isCorrect_iff_agrees.mpr found.agrees⟩
  · intro inside
    exact isLongestFrom_of_getElem?_bestLengths (best inside)
  · intro outside
    rw [← length_bestLengths numbers] at outside
    rw [found.length, List.getD_eq_getElem?_getD, List.getElem?_eq_none outside,
      Option.getD_none]
  · intro inside
    exact Memo.known?_eq_some_iff.mp (known.trans (best inside))

end Lawful

/-! ## The order of the searches -/

theorem lengthFromAny_eq_of_perm
    {numbers : List α} {memo : Memo} (agrees : memo.Agrees numbers)
    {starts starts' : List Nat}
    (isOrder : starts.Perm (List.range numbers.length))
    (isOrder' : starts'.Perm (List.range numbers.length)) :
    lengthFromAny numbers starts memo = lengthFromAny numbers starts' memo := by
  apply Prod.ext
  · rw [length_lengthFromAny_of_perm agrees isOrder,
      length_lengthFromAny_of_perm agrees isOrder']
  · apply Array.toList_inj.mp
    rw [toList_lengthFromAny_of_perm agrees isOrder,
      toList_lengthFromAny_of_perm agrees isOrder']

/--
The contract of a search.  With room for every position it ends, with no more
frames open than there are positions from its start on and one, and in no other
way.  From a memo of greatest lengths it keeps the contract.

Searches from any positions leave a memo of greatest lengths behind and find the
greatest of the lengths in the table, and a search after them finds the length
that it finds in a blank memo, the one in the table.  Searches from all of the
positions, in whatever order, find the length of a longest subsequence, remember
the whole table, and end as the search from the back does.
-/
theorem lengthFrom_keeps_contract
    [Std.TransOrd α] (numbers : List α) (start : Nat) {memo : Memo}
    (size : memo.size = numbers.length) :
    let blank := Memo.blank numbers.length
    (SearchWithin numbers (numbers.length - start + 1) start memo
          (lengthFrom numbers start memo) ∧
        ∀ frames result, SearchWithin numbers frames start memo result →
          result = lengthFrom numbers start memo) ∧
      (memo.IsCorrect numbers →
        KeepsContract numbers start memo (lengthFrom numbers start memo)) ∧
      (∀ starts : List Nat,
        let searched := lengthFromAny numbers starts blank
        searched.2.IsCorrect numbers ∧
          searched.1 =
            (starts.map ((bestLengths numbers).getD · 0)).foldl max 0 ∧
          (lengthFrom numbers start searched.2).1 =
            (lengthFrom numbers start blank).1 ∧
          (lengthFrom numbers start searched.2).1 =
            (bestLengths numbers).getD start 0) ∧
      ∀ starts : List Nat, starts.Perm (List.range numbers.length) →
        let searched := lengthFromAny numbers starts blank
        searched = searchFromBack numbers ∧
          IsLongest numbers searched.1 ∧
          searched.2.toList = (bestLengths numbers).map some := by
  intro blank
  have agrees : blank.Agrees numbers := .blank numbers
  refine ⟨⟨searchWithin_lengthFrom (Nat.lt_succ_self _) size,
    fun _ _ => SearchWithin.eq_lengthFrom⟩,
    fun correct => keepsContract_lengthFrom correct start, ?_, ?_⟩
  · intro starts searched
    have found := (found_lengthFromAny agrees starts).1
    have foundNext := (found_lengthFrom found.agrees start).1.length
    have foundFirst := (found_lengthFrom agrees start).1.length
    exact ⟨Memo.isCorrect_iff_agrees.mpr found.agrees, found.length,
      foundNext.trans foundFirst.symm, foundNext⟩
  · intro starts isOrder searched
    have length := length_lengthFromAny_of_perm agrees isOrder
    refine ⟨lengthFromAny_eq_of_perm agrees isOrder (List.reverse_perm _),
      ?_, toList_lengthFromAny_of_perm agrees isOrder⟩
    rw [length]
    exact isLongest_lengthByTable numbers

/--
The memo knows one length in the middle; the search from `b` enters
three around it.
-/
theorem keepsContract_of_partial_memo :
    let numbers : List Keyed :=
      [⟨2, "a"⟩, ⟨1, "b"⟩, ⟨2, "c"⟩, ⟨3, "d"⟩, ⟨3, "e"⟩]
    let memo : Memo := #[none, none, some 2, none, none]
    let grown : Memo := #[none, some 3, some 2, some 1, some 1]
    Std.TransOrd Keyed ∧ memo.IsCorrect numbers ∧
      lengthFrom numbers 1 memo = (3, grown) ∧
      SearchWithin numbers 5 1 memo (3, grown) ∧
      KeepsContract numbers 1 memo (3, grown) ∧
      lengthFromAny numbers [2, 0, 4, 1, 3] (Memo.blank 5) =
        searchFromBack numbers ∧
      (searchFromBack numbers).2.toList =
        [some 2, some 3, some 2, some 1, some 1] := by
  intro numbers memo grown
  have table : bestLengths numbers = [2, 3, 2, 1, 1] := by
    cbv
  have correct : memo.IsCorrect numbers := by
    have best : (bestLengths numbers)[2]? = some 2 := by
      rw [table]
      rfl
    exact Memo.isCorrect_iff_agrees.mpr
      ((Memo.Agrees.blank numbers).remember best)
  have computed : lengthFrom numbers 1 memo = (3, grown) := by
    cbv
  rcases lengthFrom_keeps_contract numbers 1 correct.size with
    ⟨⟨within, _⟩, keeps, _, anyOrder⟩
  have keepsNow := keeps correct
  rw [computed] at within keepsNow
  have isOrder : [2, 0, 4, 1, 3].Perm (List.range numbers.length) := by
    decide
  rcases anyOrder [2, 0, 4, 1, 3] isOrder with ⟨sameSearch, _, remembered⟩
  rw [sameSearch, table] at remembered
  exact ⟨inferInstance, correct, computed, within, keepsNow, sameSearch,
    remembered⟩

end Longest.Increasing
