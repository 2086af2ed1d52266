import Longest.Proofs.Increasing.Order
import Mathlib.Data.List.Chain

/-!
# Increasing subsequences with a fixed end

The positions of a strictly increasing subsequence form a chain: each of them
precedes the next one in the list and rises to it.  Subsequences are therefore
built and taken apart at either end.

`IsLongestTo numbers last length` and
`IsLongestFrom numbers first length` give the greatest length of an
increasing subsequence that ends or starts at a position.
-/

namespace Longest.Increasing

variable {α : Type} [Ord α]

/--
A subsequence that ends at the first position can be continued by the second
one.
-/
def Precedes (numbers : List α) (first second : Nat) : Prop :=
  first < second ∧ RisesAt numbers first second

/--
The greatest length of a strictly increasing subsequence that ends at a
position.
-/
structure IsLongestTo (numbers : List α) (last length : Nat) : Prop where
  attained :
    ∃ positions, IsIncreasing numbers positions ∧
      positions.getLast? = some last ∧ positions.length = length
  bound :
    ∀ positions, IsIncreasing numbers positions →
      positions.getLast? = some last → positions.length ≤ length

/--
The greatest length of a strictly increasing subsequence that
starts at a position.
-/
structure IsLongestFrom (numbers : List α) (first length : Nat) : Prop where
  attained :
    ∃ positions, IsIncreasing numbers positions ∧
      positions.head? = some first ∧ positions.length = length
  bound :
    ∀ positions, IsIncreasing numbers positions →
      positions.head? = some first → positions.length ≤ length

/-! ## Elements at positions -/

theorem RisesAt.lt_length
    {numbers : List α} {first second : Nat}
    (rises : RisesAt numbers first second) :
    first < numbers.length ∧ second < numbers.length := by
  rcases rises with ⟨lower, lowerAt, upper, upperAt, _⟩
  exact ⟨(List.getElem?_eq_some_iff.mp lowerAt).1,
    (List.getElem?_eq_some_iff.mp upperAt).1⟩

theorem risesAt_iff
    {numbers : List α} {first second : Nat} {lower upper : α}
    (lowerAt : numbers[first]? = some lower)
    (upperAt : numbers[second]? = some upper) :
    RisesAt numbers first second ↔ Rises lower upper := by
  simp [RisesAt, lowerAt, upperAt]

theorem risesAt_append_left
    {numbers more : List α} {first second : Nat}
    (firstInside : first < numbers.length)
    (secondInside : second < numbers.length) :
    RisesAt (numbers ++ more) first second ↔ RisesAt numbers first second := by
  simp [RisesAt, List.getElem?_append_left firstInside,
    List.getElem?_append_left secondInside]

theorem risesAt_concat_length
    {numbers : List α} {value : α} {first : Nat}
    (inside : first < numbers.length) :
    RisesAt (numbers ++ [value]) first numbers.length ↔
      ∃ lower, numbers[first]? = some lower ∧ Rises lower value := by
  simp [RisesAt, List.getElem?_append_left inside]

theorem risesAt_zero_succ
    {numbers : List α} {value : α} {second : Nat} :
    RisesAt (value :: numbers) 0 (second + 1) ↔
      ∃ upper, numbers[second]? = some upper ∧ Rises value upper := by
  simp [RisesAt]

theorem risesAt_cons_succ
    {numbers : List α} {value : α} {first second : Nat} :
    RisesAt (value :: numbers) (first + 1) (second + 1) ↔
      RisesAt numbers first second := by
  simp [RisesAt]

/-! ## Positions as a chain -/

theorem isIncreasing_nil (numbers : List α) : IsIncreasing numbers [] :=
  ⟨by simp, List.Pairwise.nil, List.Pairwise.nil⟩

section Lawful

variable [Std.TransOrd α]

theorem RisesAt.trans
    {numbers : List α} {first second third : Nat}
    (lower : RisesAt numbers first second)
    (upper : RisesAt numbers second third) :
    RisesAt numbers first third := by
  rcases lower with ⟨low, lowAt, middle, middleAt, lowRises⟩
  rcases upper with ⟨middle', middleAt', high, highAt, highRises⟩
  have same : middle = middle' := Option.mem_unique middleAt middleAt'
  subst same
  exact ⟨low, lowAt, high, highAt, lowRises.trans highRises⟩

instance (numbers : List α) :
    Trans (Precedes numbers) (Precedes numbers) (Precedes numbers) where
  trans lower upper := ⟨Nat.lt_trans lower.1 upper.1, lower.2.trans upper.2⟩

theorem isIncreasing_iff_isChain {numbers : List α} {positions : List Nat} :
    IsIncreasing numbers positions ↔
      (∀ position ∈ positions, position < numbers.length) ∧
        positions.IsChain (Precedes numbers) := by
  rw [List.isChain_iff_pairwise]
  constructor
  · intro increasing
    exact ⟨increasing.inRange, increasing.ascending.and increasing.rising⟩
  · rintro ⟨inRange, precedes⟩
    exact ⟨inRange, precedes.imp And.left, precedes.imp And.right⟩

theorem isIncreasing_singleton
    {numbers : List α} {position : Nat} (inside : position < numbers.length) :
    IsIncreasing numbers [position] :=
  isIncreasing_iff_isChain.mpr
    ⟨by simpa using inside, List.isChain_singleton position⟩

/-- Only the last position matters for the next one. -/
theorem isIncreasing_concat
    {numbers : List α} {positions : List Nat} {last : Nat} :
    IsIncreasing numbers (positions ++ [last]) ↔
      IsIncreasing numbers positions ∧ last < numbers.length ∧
        ∀ previous ∈ positions.getLast?, Precedes numbers previous last := by
  simp only [isIncreasing_iff_isChain, List.isChain_append, List.mem_append,
    List.mem_singleton, List.isChain_singleton, List.head?_singleton,
    Option.mem_some_iff]
  constructor
  · rintro ⟨inRange, chain, _, joined⟩
    exact ⟨⟨fun position member => inRange position (Or.inl member), chain⟩,
      inRange last (Or.inr rfl),
      fun previous isLast => joined previous isLast last rfl⟩
  · rintro ⟨⟨inRange, chain⟩, inside, joined⟩
    refine ⟨?_, chain, trivial, ?_⟩
    · rintro position (member | rfl)
      · exact inRange position member
      · exact inside
    · rintro previous isLast _ rfl
      exact joined previous isLast

theorem isIncreasing_cons
    {numbers : List α} {first : Nat} {positions : List Nat} :
    IsIncreasing numbers (first :: positions) ↔
      first < numbers.length ∧
        (∀ next ∈ positions.head?, Precedes numbers first next) ∧
          IsIncreasing numbers positions := by
  simp only [isIncreasing_iff_isChain, List.isChain_cons, List.forall_mem_cons]
  constructor
  · rintro ⟨⟨inside, inRange⟩, joined, chain⟩
    exact ⟨inside, joined, inRange, chain⟩
  · rintro ⟨inside, joined, inRange, chain⟩
    exact ⟨⟨inside, inRange⟩, joined, chain⟩

end Lawful

/-! ## Lists that grow at either end -/

theorem isIncreasing_append_left
    {numbers more : List α} {positions : List Nat}
    (inside : ∀ position ∈ positions, position < numbers.length) :
    IsIncreasing (numbers ++ more) positions ↔
      IsIncreasing numbers positions := by
  have sameRising :
      positions.Pairwise (RisesAt (numbers ++ more)) ↔
        positions.Pairwise (RisesAt numbers) :=
    List.Pairwise.iff_of_mem
      fun {first second} firstMember secondMember =>
        risesAt_append_left (inside first firstMember)
          (inside second secondMember)
  constructor
  · intro increasing
    exact ⟨inside, increasing.ascending, sameRising.mp increasing.rising⟩
  · intro increasing
    refine ⟨?_, increasing.ascending, sameRising.mpr increasing.rising⟩
    intro position member
    rw [List.length_append]
    exact Nat.lt_add_right _ (inside position member)

theorem isIncreasing_map_succ
    {numbers : List α} {value : α} {positions : List Nat} :
    IsIncreasing (value :: numbers) (positions.map (· + 1)) ↔
      IsIncreasing numbers positions := by
  constructor
  · rintro ⟨inRange, ascending, rising⟩
    rw [List.pairwise_map] at ascending rising
    refine ⟨?_, ascending.imp Nat.lt_of_succ_lt_succ,
      rising.imp risesAt_cons_succ.mp⟩
    intro position member
    exact Nat.lt_of_succ_lt_succ (inRange _ (List.mem_map_of_mem member))
  · rintro ⟨inRange, ascending, rising⟩
    refine ⟨?_, List.pairwise_map.mpr (ascending.imp Nat.succ_lt_succ),
      List.pairwise_map.mpr (rising.imp risesAt_cons_succ.mpr)⟩
    simpa using inRange

/-! ## Greatest lengths -/

theorem IsLongest.unique
    {numbers : List α} {length length' : Nat}
    (longest : IsLongest numbers length)
    (longest' : IsLongest numbers length') :
    length = length' := by
  rcases longest.attained with ⟨positions, increasing, rfl⟩
  rcases longest'.attained with ⟨positions', increasing', rfl⟩
  exact Nat.le_antisymm (longest'.bound positions increasing)
    (longest.bound positions' increasing')

/--
Any position alone is an increasing subsequence, so only an empty list
has none but `[]`.
-/
theorem IsLongest.eq_zero_iff
    [Std.TransOrd α] {numbers : List α} {length : Nat}
    (longest : IsLongest numbers length) :
    length = 0 ↔ numbers = [] := by
  constructor
  · rintro rfl
    refine List.eq_nil_of_length_eq_zero
      (Nat.eq_zero_of_not_pos fun inside => ?_)
    exact absurd (longest.bound [0] (isIncreasing_singleton inside))
      (Nat.not_succ_le_zero 0)
  · rintro rfl
    rcases longest.attained with ⟨positions, increasing, rfl⟩
    cases positions with
    | nil => rfl
    | cons first rest =>
        exact absurd (increasing.inRange first List.mem_cons_self) (by simp)

theorem IsLongestTo.unique
    {numbers : List α} {last length length' : Nat}
    (longest : IsLongestTo numbers last length)
    (longest' : IsLongestTo numbers last length') :
    length = length' := by
  rcases longest.attained with ⟨positions, increasing, ends, rfl⟩
  rcases longest'.attained with ⟨positions', increasing', ends', rfl⟩
  exact Nat.le_antisymm (longest'.bound positions increasing ends)
    (longest.bound positions' increasing' ends')

theorem IsLongestFrom.unique
    {numbers : List α} {first length length' : Nat}
    (longest : IsLongestFrom numbers first length)
    (longest' : IsLongestFrom numbers first length') :
    length = length' := by
  rcases longest.attained with ⟨positions, increasing, starts, rfl⟩
  rcases longest'.attained with ⟨positions', increasing', starts', rfl⟩
  exact Nat.le_antisymm (longest'.bound positions increasing starts)
    (longest.bound positions' increasing' starts')

theorem IsIncreasing.le_getLast
    {numbers : List α} {positions : List Nat} {last : Nat}
    (increasing : IsIncreasing numbers positions)
    (ends : positions.getLast? = some last) :
    ∀ position ∈ positions, position ≤ last := by
  rcases List.getLast?_eq_some_iff.mp ends with ⟨earlier, rfl⟩
  have before := (List.pairwise_append.mp increasing.ascending).2.2
  intro position member
  rcases List.mem_append.mp member with isEarlier | isLast
  · exact Nat.le_of_lt
      (before position isEarlier last (List.mem_singleton_self last))
  · exact Nat.le_of_eq (List.mem_singleton.mp isLast)

theorem IsLongestTo.lt_length
    {numbers : List α} {last length : Nat}
    (longest : IsLongestTo numbers last length) :
    last < numbers.length := by
  rcases longest.attained with ⟨positions, increasing, ends, _⟩
  exact increasing.inRange last (List.mem_of_getLast? ends)

/--
What comes behind a position has no part in the subsequences that end at it.
-/
theorem isLongestTo_append_left
    {numbers more : List α} {last length : Nat}
    (inside : last < numbers.length) :
    IsLongestTo (numbers ++ more) last length ↔
      IsLongestTo numbers last length := by
  have sameIncreasing :
      ∀ positions : List Nat, positions.getLast? = some last →
        (IsIncreasing (numbers ++ more) positions ↔
          IsIncreasing numbers positions) := by
    intro positions ends
    constructor
    · intro increasing
      refine (isIncreasing_append_left fun position member => ?_).mp increasing
      exact Nat.lt_of_le_of_lt (increasing.le_getLast ends position member)
        inside
    · intro increasing
      exact (isIncreasing_append_left increasing.inRange).mpr increasing
  constructor
  · rintro ⟨⟨positions, increasing, ends, sameLength⟩, bound⟩
    exact ⟨⟨positions, (sameIncreasing positions ends).mp increasing, ends,
        sameLength⟩,
      fun other otherIncreasing otherEnds =>
        bound other ((sameIncreasing other otherEnds).mpr otherIncreasing)
          otherEnds⟩
  · rintro ⟨⟨positions, increasing, ends, sameLength⟩, bound⟩
    exact ⟨⟨positions, (sameIncreasing positions ends).mpr increasing, ends,
        sameLength⟩,
      fun other otherIncreasing otherEnds =>
        bound other ((sameIncreasing other otherEnds).mp otherIncreasing)
          otherEnds⟩

theorem IsLongestTo.lt_of_precedes
    [Std.TransOrd α] {numbers : List α} {first second length length' : Nat}
    (longest : IsLongestTo numbers first length)
    (longest' : IsLongestTo numbers second length')
    (precedes : Precedes numbers first second) :
    length < length' := by
  rcases longest.attained with ⟨positions, increasing, ends, rfl⟩
  have continued : IsIncreasing numbers (positions ++ [second]) := by
    refine isIncreasing_concat.mpr ⟨increasing, precedes.2.lt_length.2, ?_⟩
    rintro previous isLast
    have same : first = previous := Option.mem_unique ends isLast
    exact same ▸ precedes
  simpa [Nat.succ_le_iff] using longest'.bound _ continued (by simp)

/--
Nothing rises between positions that end longest subsequences of one length.
-/
theorem IsLongestTo.not_risesAt
    [Std.TransOrd α] {numbers : List α} {first second length : Nat}
    (longest : IsLongestTo numbers first length)
    (longest' : IsLongestTo numbers second length)
    (ordered : first ≤ second) :
    ¬ RisesAt numbers first second := by
  intro rises
  rcases Nat.lt_or_eq_of_le ordered with before | rfl
  · exact absurd (longest.lt_of_precedes longest' ⟨before, rises⟩)
      (Nat.lt_irrefl length)
  · rcases rises with ⟨lower, lowerAt, upper, upperAt, lowerRises⟩
    rw [Option.mem_unique lowerAt upperAt, Rises,
      Std.ReflOrd.compare_self] at lowerRises
    cases lowerRises

end Longest.Increasing
