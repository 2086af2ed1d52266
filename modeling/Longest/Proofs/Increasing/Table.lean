import Longest.Increasing.Table
import Longest.Proofs.Increasing.Subsequence

/-!
# The table holds greatest lengths

A longest subsequence that starts at a position consists of this position
alone, or continues with a longest one that starts at a later position to
which it rises.  The rows of the table are filled by this rule, from the last
one to the first.
-/

namespace Longest.Increasing

variable {α : Type}

/-! ## Greatest numbers -/

/-- The fold of `max` is one of the numbers, and none is greater. -/
theorem foldl_max_spec (first : Nat) (numbers : List Nat) :
    numbers.foldl max first ∈ first :: numbers ∧
      ∀ number ∈ first :: numbers, number ≤ numbers.foldl max first :=
  List.max?_eq_some_iff.mp List.max?_cons'

variable [Ord α]

theorem bestFrom_eq_foldl_max (value : α) (later : List (Row α)) :
    bestFrom value later =
      ((later.filter fun row =>
        decide (Rises value row.value)).map (1 + ·.best)).foldl max 1 := by
  rw [List.foldl_map, List.foldl_filter]
  simp only [bestFrom, decide_eq_true_eq]

theorem le_bestFrom
    {value : α} {later : List (Row α)} {row : Row α}
    (member : row ∈ later) (rises : Rises value row.value) :
    1 + row.best ≤ bestFrom value later := by
  rw [bestFrom_eq_foldl_max]
  apply (foldl_max_spec _ _).2
  apply List.mem_cons_of_mem
  exact List.mem_map_of_mem (List.mem_filter.mpr ⟨member, decide_eq_true rises⟩)

theorem one_le_bestFrom (value : α) (later : List (Row α)) :
    1 ≤ bestFrom value later := by
  rw [bestFrom_eq_foldl_max]
  exact (foldl_max_spec _ _).2 1 List.mem_cons_self

theorem bestFrom_attained (value : α) (later : List (Row α)) :
    bestFrom value later = 1 ∨
      ∃ row ∈ later, Rises value row.value ∧
        bestFrom value later = 1 + row.best := by
  rw [bestFrom_eq_foldl_max]
  rcases List.mem_cons.mp (foldl_max_spec 1 _).1 with isOne | member
  · exact Or.inl isOne
  · rcases List.mem_map.mp member with ⟨row, rowMember, rowIs⟩
    rcases List.mem_filter.mp rowMember with ⟨inLater, rises⟩
    exact Or.inr ⟨row, inLater, of_decide_eq_true rises, rowIs.symm⟩

/-! ## Rows -/

@[simp]
theorem table_cons (value : α) (later : List α) :
    table (value :: later) =
      ⟨value, bestFrom value (table later)⟩ :: table later :=
  rfl

theorem map_value_table (numbers : List α) :
    (table numbers).map Row.value = numbers := by
  induction numbers with
  | nil => rfl
  | cons value later induction => rw [table_cons, List.map_cons, induction]

theorem length_table (numbers : List α) :
    (table numbers).length = numbers.length := by
  rw [← List.length_map, map_value_table]

@[simp]
theorem length_bestLengths (numbers : List α) :
    (bestLengths numbers).length = numbers.length := by
  rw [bestLengths, List.length_map, length_table]

theorem value_of_getElem?_table
    {numbers : List α} {position : Nat} {row : Row α}
    (found : (table numbers)[position]? = some row) :
    numbers[position]? = some row.value := by
  rw [← map_value_table numbers, List.getElem?_map, found, Option.map_some]

/-! ## Longest subsequences from a position -/

theorem isLongestFrom_cons_succ
    {numbers : List α} {value : α} {first length : Nat}
    (longest : IsLongestFrom numbers first length) :
    IsLongestFrom (value :: numbers) (first + 1) length := by
  constructor
  · rcases longest.attained with ⟨positions, increasing, starts, sameLength⟩
    exact ⟨positions.map (· + 1), isIncreasing_map_succ.mpr increasing,
      by simp [starts], by simp [sameLength]⟩
  · intro positions increasing starts
    have behind : ∀ position ∈ positions, 1 ≤ position := by
      rcases List.head?_eq_some_iff.mp starts with ⟨rest, rfl⟩
      have firstLeast := (List.pairwise_cons.mp increasing.ascending).1
      intro position member
      rcases List.mem_cons.mp member with rfl | isLater
      · exact Nat.le_add_left 1 first
      · exact Nat.one_le_of_lt (firstLeast position isLater)
    have shifted : (positions.map (· - 1)).map (· + 1) = positions := by
      rw [List.map_map]
      refine (List.map_congr_left ?_).trans (List.map_id positions)
      intro position member
      exact Nat.sub_add_cancel (behind position member)
    rw [← shifted] at increasing
    have bounded := longest.bound (positions.map (· - 1))
      (isIncreasing_map_succ.mp increasing) (by simp [starts])
    simpa using bounded

variable [Std.TransOrd α]

/--
The rule by which greatest lengths are found: a position alone has length 1, and
in front of a later one to which it rises it is longer by one.
-/
theorem isLongestFrom_of_successors
    {numbers : List α} {first length : Nat} (inside : first < numbers.length)
    (known :
      ∀ next, Precedes numbers first next →
        ∃ above, IsLongestFrom numbers next above ∧ 1 + above ≤ length)
    (positive : 1 ≤ length)
    (attained :
      length = 1 ∨
        ∃ next above, Precedes numbers first next ∧
          IsLongestFrom numbers next above ∧ length = 1 + above) :
    IsLongestFrom numbers first length := by
  constructor
  · rcases attained with rfl | ⟨next, above, precedes, longest, rfl⟩
    · exact ⟨[first], isIncreasing_singleton inside, rfl, rfl⟩
    · rcases longest.attained with ⟨positions, increasing, starts, rfl⟩
      refine ⟨first :: positions,
        isIncreasing_cons.mpr ⟨inside, ?_, increasing⟩, rfl, Nat.add_comm _ _⟩
      intro next' isFirst
      rw [Option.mem_unique isFirst starts]
      exact precedes
  · intro positions increasing starts
    rcases List.head?_eq_some_iff.mp starts with ⟨rest, rfl⟩
    rcases isIncreasing_cons.mp increasing with ⟨_, joined, restIncreasing⟩
    cases nextIs : rest.head? with
    | none =>
        rw [List.head?_eq_none_iff.mp nextIs]
        exact positive
    | some next =>
        rcases known next (joined next nextIs) with ⟨above, longest, bounded⟩
        have restBounded := longest.bound rest restIncreasing nextIs
        rw [List.length_cons]
        omega

/-! ## The finished table -/

/--
Each row holds the greatest length of a subsequence that starts at its position.
-/
theorem isLongestFrom_of_getElem?_table
    {numbers : List α} {position : Nat} {row : Row α}
    (found : (table numbers)[position]? = some row) :
    IsLongestFrom numbers position row.best := by
  induction numbers generalizing position row with
  | nil =>
      simp [table] at found
  | cons value later induction =>
      rw [table_cons] at found
      cases position with
      | succ position =>
          exact isLongestFrom_cons_succ (induction found)
      | zero =>
          have rowIs := Option.some.inj found
          subst row
          apply isLongestFrom_of_successors (Nat.zero_lt_succ _)
          · rintro next ⟨before, rises⟩
            cases next with
            | zero => exact absurd before (Nat.lt_irrefl 0)
            | succ next =>
                rcases risesAt_zero_succ.mp rises with
                  ⟨upper, upperAt, valueRises⟩
                have inside := (List.getElem?_eq_some_iff.mp upperAt).1
                rw [← length_table] at inside
                have rowFound := List.getElem?_eq_getElem inside
                have upperIs := value_of_getElem?_table rowFound
                rw [upperAt] at upperIs
                rw [Option.some.inj upperIs] at valueRises
                exact ⟨_, isLongestFrom_cons_succ (induction rowFound),
                  le_bestFrom (List.getElem_mem inside) valueRises⟩
          · exact one_le_bestFrom value (table later)
          · rcases bestFrom_attained value (table later) with
              isOne | ⟨row, member, rises, bestIs⟩
            · exact Or.inl isOne
            · rcases List.mem_iff_getElem?.mp member with ⟨next, rowFound⟩
              exact Or.inr
                ⟨next + 1, row.best,
                  ⟨Nat.zero_lt_succ next,
                    risesAt_zero_succ.mpr
                      ⟨row.value, value_of_getElem?_table rowFound, rises⟩⟩,
                  isLongestFrom_cons_succ (induction rowFound), bestIs⟩

theorem isLongestFrom_of_getElem?_bestLengths
    {numbers : List α} {position best : Nat}
    (found : (bestLengths numbers)[position]? = some best) :
    IsLongestFrom numbers position best := by
  rw [bestLengths, List.getElem?_map, Option.map_eq_some_iff] at found
  rcases found with ⟨row, rowFound, rfl⟩
  exact isLongestFrom_of_getElem?_table rowFound

theorem isLongest_lengthByTable (numbers : List α) :
    IsLongest numbers (lengthByTable numbers) := by
  rcases foldl_max_spec 0 (bestLengths numbers) with ⟨attained, bound⟩
  constructor
  · rcases List.mem_cons.mp attained with isZero | member
    · exact ⟨[], isIncreasing_nil numbers, isZero.symm⟩
    · rcases List.mem_map.mp member with ⟨row, rowMember, rowIs⟩
      rcases List.mem_iff_getElem?.mp rowMember with ⟨position, found⟩
      rcases (isLongestFrom_of_getElem?_table found).attained with
        ⟨positions, increasing, _, sameLength⟩
      exact ⟨positions, increasing, sameLength.trans rowIs⟩
  · intro positions increasing
    cases positions with
    | nil => exact Nat.zero_le _
    | cons first rest =>
        have inside := increasing.inRange first List.mem_cons_self
        rw [← length_table] at inside
        have found := List.getElem?_eq_getElem inside
        have bounded :=
          (isLongestFrom_of_getElem?_table found).bound _ increasing rfl
        apply Nat.le_trans bounded
        apply bound
        apply List.mem_cons_of_mem
        exact List.mem_map_of_mem (List.getElem_mem inside)

/--
The length from the table is the greatest length of an increasing subsequence,
which is 0 for the empty list only; and the finished table holds, for every
position, the greatest length of an increasing subsequence that starts there.
-/
theorem lengthByTable_isLongest_bestLengths_isLongestFrom (numbers : List α) :
    IsLongest numbers (lengthByTable numbers) ∧
      (lengthByTable numbers = 0 ↔ numbers = []) ∧
      (bestLengths numbers).length = numbers.length ∧
      ∀ position best, (bestLengths numbers)[position]? = some best →
        IsLongestFrom numbers position best := by
  have longest := isLongest_lengthByTable numbers
  refine ⟨longest, longest.eq_zero_iff, length_bestLengths numbers, ?_⟩
  intro position best found
  exact isLongestFrom_of_getElem?_bestLengths found

/--
Elements with one key do not follow each other in a subsequence,
whatever their tags.
-/
theorem lengthByTable_of_repeated_keys :
    let numbers : List Keyed :=
      [⟨2, "a"⟩, ⟨1, "b"⟩, ⟨2, "c"⟩, ⟨2, "d"⟩, ⟨3, "e"⟩]
    Std.TransOrd Keyed ∧ bestLengths numbers = [2, 3, 2, 2, 1] ∧
      IsLongestFrom numbers 0 2 ∧ IsLongest numbers 3 := by
  intro numbers
  have finished : bestLengths numbers = [2, 3, 2, 2, 1] := by
    cbv
  rcases lengthByTable_isLongest_bestLengths_isLongestFrom numbers with
    ⟨longest, _, _, longestFrom⟩
  rw [lengthByTable, finished] at longest
  rw [finished] at longestFrom
  exact ⟨inferInstance, finished, longestFrom 0 2 rfl, longest⟩

end Longest.Increasing
