import Longest.Proofs.Increasing.Memo

/-!
# The recursion of memoised search

`lengthFrom` and `continueWith` share the work of one recursion, in which a
search looks at the later positions in turn and searches from each to which its
own element rises.  `Search` describes this recursion with one frame opened:
what a nested search ends with is left to a relation.  Closing it with a bound
on the frames that are open at the same time gives `SearchWithin`.

Every search ends, whatever the memo holds, and ends with what `lengthFrom`
computes.  It never has more frames open than there are positions from its
start on, and one.
-/

namespace Longest.Increasing

variable {α : Type}

/-! ## Entries of a memo -/

namespace Memo

theorem known?_eq_some_iff {memo : Memo} {position length : Nat} :
    memo.known? position = some length ↔
      memo[position]? = some (some length) := by
  rw [known?, Array.getD_eq_getD_getElem?]
  cases entry : memo[position]? <;> simp

theorem known?_of_getElem? {memo : Memo} {position : Nat} {entry : Option Nat}
    (found : memo[position]? = some entry) : memo.known? position = entry := by
  rw [known?, Array.getD_eq_getD_getElem?, found, Option.getD_some]

theorem getElem?_eq_some_known?
    {memo : Memo} {position : Nat} (inside : position < memo.size) :
    memo[position]? = some (memo.known? position) := by
  have found := Array.getElem?_eq_getElem inside
  rw [found, known?_of_getElem? found]

end Memo

theorem getElem?_of_drop {items later : List α} {start : Nat} {item : α}
    (rest : items.drop start = item :: later) : items[start]? = some item := by
  rw [← List.head?_drop, rest, List.head?_cons]

theorem drop_of_getElem? {items : List α} {start : Nat} {item : α}
    (found : items[start]? = some item) :
    items.drop start = item :: items.drop (start + 1) := by
  obtain ⟨inside, rfl⟩ := List.getElem?_eq_some_iff.mp found
  exact List.drop_eq_getElem_cons inside

variable [Ord α]

theorem size_continueWith
    (value : α) (next : Nat) (later : List α) (length : Nat) (memo : Memo) :
    (continueWith value next later length memo).2.size = memo.size := by
  fun_induction continueWith value next later length memo with
  | case1 next length memo => rfl
  | case2 value next candidate later length memo rises above known induction =>
      exact induction
  | case3 value next candidate later length memo rises unknown above grown
      searched inner outer =>
      rw [outer, Memo.size_remember]
      rw [searched] at inner
      exact inner
  | case4 value next candidate later length memo notRises induction =>
      exact induction

theorem size_lengthFrom (numbers : List α) (start : Nat) (memo : Memo) :
    (lengthFrom numbers start memo).2.size = memo.size := by
  rw [lengthFrom]
  split
  · rfl
  · next value later _ =>
      split
      · rfl
      · exact (Memo.size_remember _ _ _).trans
          (size_continueWith value (start + 1) later 1 memo)

/-! ## One frame -/

/--
What a search from `value` ends with, when the positions from `next` on are
still to be looked at and `length` has been reached so far.
-/
inductive Continues
    (numbers : List α) (nested : Nat → Memo → Nat × Memo → Prop) (value : α) :
    Nat → Nat → Memo → Nat × Memo → Prop where
  /-- There are no further positions. -/
  | finished
      {next length : Nat} {memo : Memo}
      (outside : numbers.length ≤ next) :
      Continues numbers nested value next length memo (length, memo)
  /-- The element does not rise to the next one. -/
  | passed
      {next length : Nat} {memo : Memo} {result : Nat × Memo} {candidate : α}
      (found : numbers[next]? = some candidate)
      (notRises : ¬ Rises value candidate)
      (onward : Continues numbers nested value (next + 1) length memo result) :
      Continues numbers nested value next length memo result
  /-- The element rises to the next one, from where a nested search starts. -/
  | searched
      {next length above : Nat} {memo grown : Memo}
      {result : Nat × Memo} {candidate : α}
      (found : numbers[next]? = some candidate)
      (rises : Rises value candidate)
      (search : nested next memo (above, grown))
      (onward :
        Continues numbers nested value (next + 1)
          (max length (1 + above)) grown result) :
      Continues numbers nested value next length memo result

/--
What a search from a position ends with; no rule reads an entry
outside of the memo.
-/
inductive Search (numbers : List α) (nested : Nat → Memo → Nat × Memo → Prop) :
    Nat → Memo → Nat × Memo → Prop where
  /-- The position is beyond the end. -/
  | beyond {start : Nat} {memo : Memo} (outside : numbers.length ≤ start) :
      Search numbers nested start memo (0, memo)
  /-- The length is remembered. -/
  | known
      {start length : Nat} {memo : Memo}
      (inside : start < numbers.length)
      (entry : memo[start]? = some (some length)) :
      Search numbers nested start memo (length, memo)
  /-- The length is searched and remembered. -/
  | unknown
      {start length : Nat} {memo grown : Memo} {value : α}
      (found : numbers[start]? = some value)
      (entry : memo[start]? = some none)
      (continues :
        Continues numbers nested value (start + 1) 1 memo (length, grown)) :
      Search numbers nested start memo (length, grown.remember start length)

/--
What a search ends with that never has more than the given number of frames
open.
-/
def SearchWithin (numbers : List α) : Nat → Nat → Memo → Nat × Memo → Prop
  | 0 => fun _ _ _ => False
  | frames + 1 => Search numbers (SearchWithin numbers frames)

section Nested

variable {numbers : List α} {nested nested' : Nat → Memo → Nat × Memo → Prop}

theorem Continues.imp
    (implied : ∀ next memo result, next < numbers.length →
      nested next memo result → nested' next memo result)
    {value : α} {next length : Nat} {memo : Memo} {result : Nat × Memo}
    (continues : Continues numbers nested value next length memo result) :
    Continues numbers nested' value next length memo result := by
  induction continues with
  | finished outside => exact .finished outside
  | passed found notRises _ induction => exact .passed found notRises induction
  | searched found rises search _ induction =>
      have inside := (List.getElem?_eq_some_iff.mp found).1
      exact .searched found rises (implied _ _ _ inside search) induction

theorem Search.imp
    (implied : ∀ next memo result, next < numbers.length →
      nested next memo result → nested' next memo result)
    {start : Nat} {memo : Memo} {result : Nat × Memo}
    (search : Search numbers nested start memo result) :
    Search numbers nested' start memo result := by
  cases search with
  | beyond outside => exact .beyond outside
  | known inside entry => exact .known inside entry
  | unknown found entry continues =>
      exact .unknown found entry (continues.imp implied)

/-! ## The recursion as it is computed -/

/--
A nested search is a search from the next position with the memo of the moment.
-/
theorem continueWith_of_rises
    {later : List α} {next : Nat} {value candidate : α}
    (rest : numbers.drop next = candidate :: later)
    (rises : Rises value candidate)
    (length : Nat) (memo : Memo) :
    continueWith value next (candidate :: later) length memo =
      continueWith value (next + 1) later
        (max length (1 + (lengthFrom numbers next memo).1))
        (lengthFrom numbers next memo).2 := by
  rw [continueWith, if_pos rises]
  simp only [lengthFrom, rest]
  cases memo.known? next <;> rfl

/-- Nested searches change the memo, but not its size. -/
theorem continues_continueWith
    {first : Nat}
    (computed :
      ∀ next memo, first ≤ next → next < numbers.length →
        memo.size = numbers.length →
        nested next memo (lengthFrom numbers next memo))
    {later : List α} {next : Nat} (rest : numbers.drop next = later)
    (behind : first ≤ next)
    (value : α) (length : Nat) {memo : Memo}
    (size : memo.size = numbers.length) :
    Continues numbers nested value next length memo
      (continueWith value next later length memo) := by
  induction later generalizing next length memo with
  | nil => exact .finished (List.drop_eq_nil_iff.mp rest)
  | cons candidate later induction =>
      have restNext := drop_succ_of_drop rest
      have behindNext := Nat.le_succ_of_le behind
      have found := getElem?_of_drop rest
      have inside := (List.getElem?_eq_some_iff.mp found).1
      by_cases rises : Rises value candidate
      · rw [continueWith_of_rises rest rises]
        have sizeNext := (size_lengthFrom numbers next memo).trans size
        exact .searched found rises (computed next memo behind inside size)
          (induction restNext behindNext _ sizeNext)
      · rw [continueWith, if_neg rises]
        exact .passed found rises (induction restNext behindNext length size)

/-- A search is what `lengthFrom` computes if the nested searches are. -/
theorem search_lengthFrom
    {start : Nat}
    (computed :
      ∀ next memo, start < next → next < numbers.length →
        memo.size = numbers.length →
        nested next memo (lengthFrom numbers next memo))
    {memo : Memo} (size : memo.size = numbers.length) :
    Search numbers nested start memo (lengthFrom numbers start memo) := by
  rw [lengthFrom]
  split
  · next rest => exact .beyond (List.drop_eq_nil_iff.mp rest)
  · next value later rest =>
      have found := getElem?_of_drop rest
      have inside := (List.getElem?_eq_some_iff.mp found).1
      have entry :=
        Memo.getElem?_eq_some_known? (size ▸ inside : start < memo.size)
      split
      · next length known =>
          rw [known] at entry
          exact .known inside entry
      · next unknown =>
          rw [unknown] at entry
          exact .unknown found entry
            (continues_continueWith computed (drop_succ_of_drop rest)
              (Nat.le_refl _) value 1 size)

theorem Continues.eq_continueWith
    (computed : ∀ next memo result, next < numbers.length →
      nested next memo result → result = lengthFrom numbers next memo)
    {value : α} {next length : Nat} {memo : Memo} {result : Nat × Memo}
    (continues : Continues numbers nested value next length memo result) :
    result = continueWith value next (numbers.drop next) length memo := by
  induction continues with
  | finished outside => rw [List.drop_eq_nil_iff.mpr outside, continueWith]
  | passed found notRises _ induction =>
      rw [drop_of_getElem? found, continueWith, if_neg notRises]
      exact induction
  | searched found rises search _ induction =>
      have inside := (List.getElem?_eq_some_iff.mp found).1
      have rest := drop_of_getElem? found
      rw [rest, continueWith_of_rises rest rises,
        ← computed _ _ _ inside search]
      exact induction

theorem Search.eq_lengthFrom
    (computed : ∀ next memo result, next < numbers.length →
      nested next memo result → result = lengthFrom numbers next memo)
    {start : Nat} {memo : Memo} {result : Nat × Memo}
    (search : Search numbers nested start memo result) :
    result = lengthFrom numbers start memo := by
  rw [lengthFrom]
  cases search with
  | beyond outside => rw [List.drop_eq_nil_iff.mpr outside]
  | known inside entry =>
      rw [List.drop_eq_getElem_cons inside, Memo.known?_of_getElem? entry]
  | unknown found entry continues =>
      rw [drop_of_getElem? found, Memo.known?_of_getElem? entry]
      simp only [← continues.eq_continueWith computed]

end Nested

/-! ## Searches end -/

theorem SearchWithin.eq_lengthFrom
    {numbers : List α} {frames start : Nat} {memo : Memo} {result : Nat × Memo}
    (search : SearchWithin numbers frames start memo result) :
    result = lengthFrom numbers start memo := by
  induction frames generalizing start memo result with
  | zero => exact search.elim
  | succ frames induction =>
      exact Search.eq_lengthFrom (fun _ _ _ _ => induction) search

/--
A nested search starts further on and has fewer positions left, so one frame
less is enough for it.
-/
theorem searchWithin_lengthFrom
    {numbers : List α} {frames start : Nat}
    (enough : numbers.length - start < frames)
    {memo : Memo} (size : memo.size = numbers.length) :
    SearchWithin numbers frames start memo (lengthFrom numbers start memo) := by
  induction frames generalizing start memo with
  | zero => exact absurd enough (Nat.not_lt_zero _)
  | succ frames induction =>
      refine search_lengthFrom ?_ size
      intro next memo behind inside size
      exact induction (by omega) size

end Longest.Increasing
