import Longest.Increasing.Basic

/-!
# Length by memoised search

The longest increasing subsequence that starts at a position is searched
recursively among the later positions, and every length found is remembered in a
memo.  The memo may be filled in any pattern when a search begins; starting the
positions from the back keeps each search shallow, because all later positions
are then remembered already.
-/

namespace Longest.Increasing

variable {α : Type} [Ord α]

/-- For each position the length already found there, if any. -/
abbrev Memo :=
  Array (Option Nat)

namespace Memo

/-- A memo for `size` positions in which nothing is remembered. -/
def blank (size : Nat) : Memo :=
  Array.replicate size none

/-- The length remembered at a position. -/
def known? (memo : Memo) (position : Nat) : Option Nat :=
  memo.getD position none

/-- The memo with the length found at a position. -/
def remember (memo : Memo) (position length : Nat) : Memo :=
  memo.setIfInBounds position (some length)

end Memo

/--
The greatest of `length` and the lengths reached by continuing `value` with one
of the elements `later`, the first of which stands at position `next`.
-/
def continueWith (value : α) : Nat → List α → Nat → Memo → Nat × Memo
  | _, [], length, memo => (length, memo)
  | next, candidate :: later, length, memo =>
    if Rises value candidate then
      match memo.known? next with
      | some above =>
        continueWith value (next + 1) later (max length (1 + above)) memo
      | none =>
        let (above, memo) := continueWith candidate (next + 1) later 1 memo
        continueWith value (next + 1) later (max length (1 + above))
          (memo.remember next above)
    else
      continueWith value (next + 1) later length memo

/--
The greatest length of an increasing subsequence that starts at
position `start`, and 0 beyond the end.  If it is not known yet, it is
searched and remembered.
-/
def lengthFrom (numbers : List α) (start : Nat) (memo : Memo) : Nat × Memo :=
  match numbers.drop start with
  | [] => (0, memo)
  | value :: later =>
    match memo.known? start with
    | some length => (length, memo)
    | none =>
      let (length, memo) := continueWith value (start + 1) later 1 memo
      (length, memo.remember start length)

/--
Searches from each of the positions in turn and keeps the greatest length found.
-/
def lengthFromAny (numbers : List α) (starts : List Nat) (memo : Memo) :
    Nat × Memo :=
  starts.foldl
    (fun (best, memo) start =>
      let (length, memo) := lengthFrom numbers start memo
      (max best length, memo))
    (0, memo)

/--
The greatest length and the finished memo, with the positions
started from the back.
-/
def searchFromBack (numbers : List α) : Nat × Memo :=
  lengthFromAny numbers (List.range numbers.length).reverse
    (Memo.blank numbers.length)

/--
The length of a longest strictly increasing subsequence, found by
memoised search.
-/
def lengthByMemo (numbers : List α) : Nat :=
  (searchFromBack numbers).1

end Longest.Increasing
