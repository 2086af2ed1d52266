import Longest.Increasing.Memo
import Longest.Proofs.Increasing.Table
import Mathlib.Data.List.Induction
import Mathlib.Data.List.Perm.Basic

/-!
# Memoised search agrees with the table

A memo agrees with the table if every length that it remembers is the one in the
table.  A search may begin with any such memo, whatever the pattern in which it
is filled: it finds the length in the table, remembers it and leaves a memo
behind that agrees with the table as well.  Nothing that was remembered is lost,
and nothing in front of the search is touched.

So a search from every position, in whatever order, fills the memo with
the whole table.
-/

namespace Longest.Increasing

variable {α : Type}

/-! ## What a memo remembers -/

namespace Memo

theorem known?_blank (size position : Nat) :
    (blank size).known? position = none := by
  rw [known?, blank, Array.getD_eq_getD_getElem?, Array.getElem?_replicate]
  split_ifs <;> rfl

theorem known?_remember_self
    {memo : Memo} {position : Nat} (inside : position < memo.size)
    (length : Nat) :
    (memo.remember position length).known? position = some length := by
  rw [known?, remember, Array.getD_eq_getD_getElem?,
    Array.getElem?_setIfInBounds_self_of_lt inside, Option.getD_some]

theorem known?_remember_of_ne
    (memo : Memo) {position other : Nat} (different : other ≠ position)
    (length : Nat) :
    (memo.remember position length).known? other = memo.known? other := by
  rw [known?, remember, Array.getD_eq_getD_getElem?,
    Array.getElem?_setIfInBounds_ne different.symm, known?,
    Array.getD_eq_getD_getElem?]

theorem size_remember (memo : Memo) (position length : Nat) :
    (memo.remember position length).size = memo.size :=
  Array.size_setIfInBounds

/--
Nothing remembered is lost or changed, and nothing is entered in
front of a position.
-/
structure GrowsFrom (first : Nat) (memo grown : Memo) : Prop where
  kept :
    ∀ position length, memo.known? position = some length →
      grown.known? position = some length
  untouched :
    ∀ position, position < first → grown.known? position = memo.known? position

namespace GrowsFrom

variable {first : Nat} {memo grown later : Memo}

theorem refl (first : Nat) (memo : Memo) : GrowsFrom first memo memo :=
  ⟨fun _ _ found => found, fun _ _ => rfl⟩

theorem trans
    (grows : GrowsFrom first memo grown)
    (grows' : GrowsFrom first grown later) :
    GrowsFrom first memo later where
  kept position length found :=
    grows'.kept position length (grows.kept position length found)
  untouched position before :=
    (grows'.untouched position before).trans (grows.untouched position before)

theorem of_le
    {earlier : Nat} (grows : GrowsFrom first memo grown)
    (notLater : earlier ≤ first) :
    GrowsFrom earlier memo grown :=
  ⟨grows.kept, fun position before =>
    grows.untouched position (Nat.lt_of_lt_of_le before notLater)⟩

/-- Only a position that was not known may be entered. -/
theorem remember
    (grows : GrowsFrom (first + 1) memo grown)
    (unknown : memo.known? first = none)
    (length : Nat) :
    GrowsFrom first memo (grown.remember first length) where
  kept position length' found := by
    have different : position ≠ first := by
      rintro rfl
      rw [unknown] at found
      cases found
    rw [known?_remember_of_ne grown different]
    exact grows.kept position length' found
  untouched position before := by
    rw [known?_remember_of_ne grown (Nat.ne_of_lt before)]
    exact grows.untouched position (Nat.lt_succ_of_lt before)

end GrowsFrom

variable [Ord α]

/-- There is room for every position, and what is remembered is in the table. -/
structure Agrees (numbers : List α) (memo : Memo) : Prop where
  size : memo.size = numbers.length
  known :
    ∀ position length, memo.known? position = some length →
      (bestLengths numbers)[position]? = some length

namespace Agrees

variable {numbers : List α} {memo : Memo}

theorem blank (numbers : List α) : (blank numbers.length).Agrees numbers where
  size := Array.size_replicate
  known position length found := by
    rw [known?_blank] at found
    cases found

theorem remember
    (agrees : memo.Agrees numbers) {position length : Nat}
    (best : (bestLengths numbers)[position]? = some length) :
    (memo.remember position length).Agrees numbers where
  size := (size_remember memo position length).trans agrees.size
  known other length' found := by
    by_cases same : other = position
    · subst same
      have inside := (List.getElem?_eq_some_iff.mp best).1
      rw [length_bestLengths, ← agrees.size] at inside
      rw [known?_remember_self inside] at found
      exact best.trans found
    · rw [known?_remember_of_ne memo same] at found
      exact agrees.known other length' found

theorem known?_eq_none
    (agrees : memo.Agrees numbers) {position : Nat}
    (outside : (bestLengths numbers)[position]? = none) :
    memo.known? position = none := by
  rw [Option.eq_none_iff_forall_ne_some]
  intro length found
  rw [agrees.known position length found] at outside
  cases outside

/-- What was known before is known as long as the memo only grows. -/
theorem known?_eq_of_growsFrom
    {grown : Memo} (agrees : grown.Agrees numbers) {first position : Nat}
    (grows : GrowsFrom first memo grown)
    (known : memo.known? position = (bestLengths numbers)[position]?) :
    grown.known? position = (bestLengths numbers)[position]? := by
  cases best : (bestLengths numbers)[position]? with
  | none => exact agrees.known?_eq_none best
  | some length => exact grows.kept position length (known.trans best)

end Agrees

end Memo

/-! ## The table from a position on -/

variable [Ord α]

theorem table_drop (numbers : List α) (count : Nat) :
    table (numbers.drop count) = (table numbers).drop count := by
  induction numbers generalizing count with
  | nil => simp [table]
  | cons value later induction =>
      cases count with
      | zero => rfl
      | succ count => exact induction count

theorem drop_succ_of_drop
    {β : Type} {items later : List β} {start : Nat} {item : β}
    (rest : items.drop start = item :: later) :
    items.drop (start + 1) = later := by
  rw [← List.tail_drop, rest, List.tail_cons]

theorem getElem?_bestLengths_of_drop
    {numbers later : List α} {start : Nat} {value : α}
    (rest : numbers.drop start = value :: later) :
    (bestLengths numbers)[start]? = some (bestFrom value (table later)) := by
  have firstRow :
      ((table numbers).drop start).head? =
        some ⟨value, bestFrom value (table later)⟩ := by
    rw [← table_drop, rest, table_cons, List.head?_cons]
  rw [List.head?_drop] at firstRow
  rw [bestLengths, List.getElem?_map, firstRow, Option.map_some]

/--
The greatest of `length` and of the lengths that `value` reaches in front of
one of the rows.
-/
def bestAmong (value : α) (length : Nat) (rows : List (Row α)) : Nat :=
  rows.foldl
    (fun best row =>
      if Rises value row.value then max best (1 + row.best) else best)
    length

theorem bestFrom_eq_bestAmong (value : α) (later : List (Row α)) :
    bestFrom value later = bestAmong value 1 later :=
  rfl

/-! ## One search -/

/--
A search that began with `memo` found `length` and entered nothing in
front of `first`.
-/
structure Found (numbers : List α) (first : Nat) (memo : Memo) (length : Nat)
    (result : Nat × Memo) : Prop where
  length : result.1 = length
  agrees : result.2.Agrees numbers
  grows : memo.GrowsFrom first result.2

theorem Found.of_succ
    {numbers : List α} {first : Nat} {memo : Memo} {length : Nat}
    {result : Nat × Memo}
    (found : Found numbers (first + 1) memo length result) :
    Found numbers first memo length result :=
  ⟨found.length, found.agrees, found.grows.of_le (Nat.le_succ first)⟩

/--
Every length that a search takes over or finds is the one in the table.  A
candidate that is not known is searched first, and the rest goes on with the
memo that this leaves behind.
-/
theorem found_continueWith
    {numbers later : List α} {memo : Memo} {next : Nat}
    (agrees : memo.Agrees numbers)
    (rest : numbers.drop next = later) (value : α) (length : Nat) :
    Found numbers next memo (bestAmong value length (table later))
      (continueWith value next later length memo) := by
  induction later generalizing value next length memo with
  | nil => exact ⟨rfl, agrees, .refl next memo⟩
  | cons candidate later induction =>
      have restNext := drop_succ_of_drop rest
      have best := getElem?_bestLengths_of_drop rest
      rw [continueWith, table_cons, bestAmong, List.foldl_cons, ← bestAmong]
      split_ifs with rises
      · cases known : memo.known? next with
        | some above =>
            have isBest := (agrees.known next above known).symm.trans best
            rw [Option.some.injEq] at isBest
            subst isBest
            exact (induction agrees restNext value _).of_succ
        | none =>
            rcases induction agrees restNext candidate 1 with
              ⟨searched, agrees', grows⟩
            have agreesNow := agrees'.remember best
            have growsNow :=
              grows.remember known (bestFrom candidate (table later))
            rw [← bestFrom_eq_bestAmong] at searched
            simp only [searched]
            have found := (induction agreesNow restNext value
              (max length (1 + bestFrom candidate (table later)))).of_succ
            exact ⟨found.length, found.agrees, growsNow.trans found.grows⟩
      · exact (induction agrees restNext value length).of_succ

/--
The step of a search: from any memo that agrees with the table, the length in
the table is found, or 0 beyond its end, and is known from then on.
-/
theorem found_lengthFrom
    {numbers : List α} {memo : Memo} (agrees : memo.Agrees numbers)
    (start : Nat) :
    Found numbers start memo ((bestLengths numbers).getD start 0)
        (lengthFrom numbers start memo) ∧
      (lengthFrom numbers start memo).2.known? start =
        (bestLengths numbers)[start]? := by
  rw [lengthFrom, List.getD_eq_getElem?_getD]
  split
  · next rest =>
      have outside : (bestLengths numbers)[start]? = none := by
        rw [List.getElem?_eq_none_iff, length_bestLengths]
        exact List.drop_eq_nil_iff.mp rest
      rw [outside]
      exact ⟨⟨rfl, agrees, .refl start memo⟩, agrees.known?_eq_none outside⟩
  · next value later rest =>
      have best := getElem?_bestLengths_of_drop rest
      cases known : memo.known? start with
      | some length =>
          rw [agrees.known start length known]
          exact ⟨⟨rfl, agrees, .refl start memo⟩, known⟩
      | none =>
          rcases found_continueWith agrees (drop_succ_of_drop rest) value 1 with
            ⟨searched, agrees', grows⟩
          rw [← bestFrom_eq_bestAmong] at searched
          simp only [searched]
          rw [best]
          have agreesNow := agrees'.remember best
          refine ⟨⟨rfl, agreesNow, grows.remember known _⟩, ?_⟩
          have inside := (List.getElem?_eq_some_iff.mp best).1
          rw [length_bestLengths, ← agrees'.size] at inside
          exact Memo.known?_remember_self inside _

/-! ## Searches from many positions -/

theorem lengthFromAny_concat
    (numbers : List α) (starts : List Nat) (start : Nat) (memo : Memo) :
    lengthFromAny numbers (starts ++ [start]) memo =
      (max (lengthFromAny numbers starts memo).1
          (lengthFrom numbers start (lengthFromAny numbers starts memo).2).1,
        (lengthFrom numbers start (lengthFromAny numbers starts memo).2).2) :=
  List.foldl_concat _ (0, memo) start starts

/--
The run: whatever the order of the positions, the greatest of their lengths is
found, and all of them are known in the end.
-/
theorem found_lengthFromAny
    {numbers : List α} {memo : Memo} (agrees : memo.Agrees numbers)
    (starts : List Nat) :
    Found numbers 0 memo
        ((starts.map ((bestLengths numbers).getD · 0)).foldl max 0)
        (lengthFromAny numbers starts memo) ∧
      ∀ start ∈ starts,
        (lengthFromAny numbers starts memo).2.known? start =
          (bestLengths numbers)[start]? := by
  induction starts using List.reverseRecOn with
  | nil => exact ⟨⟨rfl, agrees, .refl 0 memo⟩, List.forall_mem_nil _⟩
  | append_singleton starts start induction =>
      rcases induction with ⟨found, known⟩
      rcases found_lengthFrom found.agrees start with ⟨foundLast, knownLast⟩
      have grows := foundLast.grows.of_le (Nat.zero_le start)
      rw [lengthFromAny_concat]
      refine ⟨⟨?_, foundLast.agrees, found.grows.trans grows⟩, ?_⟩
      · rw [List.map_append, List.foldl_append, found.length, foundLast.length]
        rfl
      · refine List.forall_mem_append.mpr
          ⟨?_, List.forall_mem_singleton.mpr knownLast⟩
        intro earlier member
        exact foundLast.agrees.known?_eq_of_growsFrom grows
          (known earlier member)

/-! ## Searches from all positions -/

theorem map_range_getD_bestLengths (numbers : List α) :
    (List.range numbers.length).map ((bestLengths numbers).getD · 0) =
      bestLengths numbers := by
  apply List.ext_getElem
  · rw [List.length_map, List.length_range, length_bestLengths]
  · intro position _ inside
    rw [List.getElem_map, List.getElem_range, List.getD_eq_getElem?_getD,
      List.getElem?_eq_getElem inside, Option.getD_some]

section EveryPosition

variable {numbers : List α} {memo : Memo} {starts : List Nat}

theorem length_lengthFromAny_of_perm
    (agrees : memo.Agrees numbers)
    (isOrder : starts.Perm (List.range numbers.length)) :
    (lengthFromAny numbers starts memo).1 = lengthByTable numbers := by
  rw [(found_lengthFromAny agrees starts).1.length, (isOrder.map _).foldl_op_eq,
    map_range_getD_bestLengths]
  rfl

theorem toList_lengthFromAny_of_perm
    (agrees : memo.Agrees numbers)
    (isOrder : starts.Perm (List.range numbers.length)) :
    (lengthFromAny numbers starts memo).2.toList =
      (bestLengths numbers).map some := by
  rcases found_lengthFromAny agrees starts with ⟨found, known⟩
  have size := found.agrees.size.trans (length_bestLengths numbers).symm
  apply List.ext_getElem
  · rw [Array.length_toList, List.length_map, size]
  · intro position inMemo inTable
    rw [Array.length_toList] at inMemo
    have isStart : position ∈ starts := by
      rw [isOrder.mem_iff, List.mem_range, ← found.agrees.size]
      exact inMemo
    have knownNow := known position isStart
    rw [Memo.known?, Array.getD_eq_getD_getElem?,
      Array.getElem?_eq_getElem inMemo,
      List.getElem?_eq_getElem (size ▸ inMemo)] at knownNow
    rw [Array.getElem_toList, List.getElem_map]
    exact knownNow

end EveryPosition

theorem isLongest_lengthByMemo [Std.TransOrd α] (numbers : List α) :
    IsLongest numbers (lengthByMemo numbers) := by
  rw [lengthByMemo, searchFromBack,
    length_lengthFromAny_of_perm (.blank numbers) (List.reverse_perm _)]
  exact isLongest_lengthByTable numbers

/--
Memoised search and the table find the same length, and when the search ends the
memo remembers for every position the length in the finished table.
-/
theorem searchFromBack_eq_table (numbers : List α) :
    lengthByMemo numbers = lengthByTable numbers ∧
      (searchFromBack numbers).2.toList = (bestLengths numbers).map some := by
  have blank := Memo.Agrees.blank numbers
  have backwards := List.reverse_perm (List.range numbers.length)
  exact ⟨length_lengthFromAny_of_perm blank backwards,
    toList_lengthFromAny_of_perm blank backwards⟩

end Longest.Increasing
