import Longest.Proofs.Increasing.Agreement
import Longest.Proofs.Increasing.Rightmost
import Mathlib.Data.List.Nodup
import Mathlib.Data.List.Perm.Subperm
import Mathlib.Order.Bounds.Basic

/-!
# The fewest parts that do not go up

Patience sorting writes every element at one index of the tails.  Elements
written at one index end longest subsequences of one length, so none of them
rises to a later one: the indices divide the list into parts that never go up,
one for each tail.

The elements of an increasing subsequence lie in different parts,
whatever the parts are.  Hence a longest subsequence shows that no fewer
parts cover the list.
-/

namespace Longest.Increasing

variable {α : Type} [Ord α]

/-! ## Parts that do not go up -/

/--
The element at the second position is no greater than the one at the first.
-/
def NoGreaterAt (numbers : List α) (first second : Nat) : Prop :=
  ∃ lower ∈ numbers[second]?,
    ∃ upper ∈ numbers[first]?, (compare lower upper).isLE = true

/-- The positions of a subsequence that never goes up, from left to right. -/
structure IsNonIncreasing (numbers : List α) (positions : List Nat) : Prop where
  inRange : ∀ position ∈ positions, position < numbers.length
  ascending : positions.Pairwise (· < ·)
  nonIncreasing : positions.Pairwise (NoGreaterAt numbers)

/--
Subsequences that never go up and together meet every position;
they may overlap.
-/
structure IsCover (numbers : List α) (cover : List (List Nat)) : Prop where
  nonIncreasing : ∀ part ∈ cover, IsNonIncreasing numbers part
  covers : ∀ position < numbers.length, ∃ part ∈ cover, position ∈ part

/--
The positions with the given label, where `labels` holds one label
for each position.
-/
def positionsOf (labels : List Nat) (label : Nat) : List Nat :=
  (List.range labels.length).filter
    fun position => labels[position]? = some label

/--
The labels divide the list into `count` classes, some of which may be empty.  No
class goes up in the order of the list.
-/
structure IsDivision (numbers : List α) (count : Nat) (labels : List Nat) :
    Prop where
  length : labels.length = numbers.length
  bounded : ∀ label ∈ labels, label < count
  nonIncreasing : ∀ label, IsNonIncreasing numbers (positionsOf labels label)

theorem mem_positionsOf {labels : List Nat} {label position : Nat} :
    position ∈ positionsOf labels label ↔ labels[position]? = some label := by
  rw [positionsOf, List.mem_filter, List.mem_range, decide_eq_true_iff,
    and_iff_right_iff_imp]
  intro found
  exact (List.getElem?_eq_some_iff.mp found).1

/-- The classes of a division are the parts of a cover. -/
theorem IsDivision.exists_isCover
    {numbers : List α} {count : Nat} {labels : List Nat}
    (division : IsDivision numbers count labels) :
    ∃ cover, IsCover numbers cover ∧ cover.length = count := by
  refine ⟨(List.range count).map (positionsOf labels), ⟨?_, ?_⟩, by simp⟩
  · intro part member
    rcases List.mem_map.mp member with ⟨label, _, rfl⟩
    exact division.nonIncreasing label
  · intro position inside
    have found := List.getElem?_eq_getElem (division.length ▸ inside)
    have labelBounded := division.bounded _ (List.mem_of_getElem? found)
    exact ⟨_, List.mem_map_of_mem (List.mem_range.mpr labelBounded),
      mem_positionsOf.mpr found⟩

section Lawful

variable [Std.TransOrd α] {numbers : List α}

theorem NoGreaterAt.not_risesAt
    {first second : Nat} (noGreater : NoGreaterAt numbers first second) :
    ¬ RisesAt numbers first second := by
  rcases noGreater with ⟨lower, lowerAt, upper, upperAt, isLE⟩
  rw [risesAt_iff upperAt lowerAt]
  intro rises
  rw [Std.OrientedCmp.gt_of_lt rises] at isLE
  cases isLE

/--
In an ascending list, what holds of earlier and later members holds of
lesser and greater.
-/
theorem rel_of_lt_of_pairwise
    {relation : Nat → Nat → Prop} {positions : List Nat}
    (ascending : positions.Pairwise (· < ·))
    (related : positions.Pairwise relation)
    {first second : Nat} (firstMember : first ∈ positions)
    (secondMember : second ∈ positions)
    (before : first < second) :
    relation first second := by
  have ordered : ∀ lesser ∈ positions, ∀ greater ∈ positions,
      lesser < greater → relation lesser greater := by
    apply List.Pairwise.forall_of_forall_of_flip
    · intro position _ impossible
      exact absurd impossible (Nat.lt_irrefl position)
    · apply related.imp
      intro lesser greater holds _
      exact holds
    · apply ascending.imp
      intro lesser greater earlier later
      exact absurd earlier (Nat.lt_asymm later)
  exact ordered first firstMember second secondMember before

theorem IsNonIncreasing.not_lt
    {part positions : List Nat} (nonIncreasing : IsNonIncreasing numbers part)
    (increasing : IsIncreasing numbers positions) {first second : Nat}
    (firstInPart : first ∈ part) (secondInPart : second ∈ part)
    (firstMember : first ∈ positions) (secondMember : second ∈ positions) :
    ¬ first < second := by
  intro before
  have noGreater := rel_of_lt_of_pairwise nonIncreasing.ascending
    nonIncreasing.nonIncreasing firstInPart secondInPart before
  exact noGreater.not_risesAt
    (rel_of_lt_of_pairwise increasing.ascending increasing.rising firstMember
      secondMember before)

/--
A part that never goes up holds at most one position of an
increasing subsequence.
-/
theorem IsNonIncreasing.eq_of_mem
    {part positions : List Nat} (nonIncreasing : IsNonIncreasing numbers part)
    (increasing : IsIncreasing numbers positions) {first second : Nat}
    (firstInPart : first ∈ part) (secondInPart : second ∈ part)
    (firstMember : first ∈ positions) (secondMember : second ∈ positions) :
    first = second := by
  apply Nat.le_antisymm
  · exact Nat.le_of_not_lt
      (nonIncreasing.not_lt increasing secondInPart firstInPart secondMember
        firstMember)
  · exact Nat.le_of_not_lt
      (nonIncreasing.not_lt increasing firstInPart secondInPart firstMember
        secondMember)

/-- Every cover has a part for each position of an increasing subsequence. -/
theorem IsCover.length_le
    {cover : List (List Nat)} (isCover : IsCover numbers cover)
    {positions : List Nat} (increasing : IsIncreasing numbers positions) :
    positions.length ≤ cover.length := by
  have located : ∀ position ∈ positions, ∃ part ∈ cover, position ∈ part := by
    intro position member
    exact isCover.covers position (increasing.inRange position member)
  choose! partOf inCover met using located
  have distinct : (positions.map partOf).Nodup := by
    refine List.Nodup.map_on ?_ (increasing.ascending.imp Nat.ne_of_lt)
    intro first firstMember second secondMember samePart
    have metSecond := met second secondMember
    rw [← samePart] at metSecond
    exact (isCover.nonIncreasing _ (inCover first firstMember)).eq_of_mem
      increasing (met first firstMember) metSecond firstMember secondMember
  have listed : positions.map partOf ⊆ cover := by
    intro part member
    rcases List.mem_map.mp member with ⟨position, positionMember, rfl⟩
    exact inCover position positionMember
  simpa using (List.subperm_of_subset distinct listed).length_le

end Lawful

/-! ## Where elements are written -/

/--
The indices at which elements are written one after the other, beginning
with some tails.
-/
def placementsFrom (tails : Array α) : List α → List Nat
  | [] => []
  | value :: later =>
    tailIndex tails value :: placementsFrom (placeTail tails value) later

/-- For each element of a list the index of the tails at which it is written. -/
def placements (numbers : List α) : List Nat :=
  placementsFrom #[] numbers

theorem placementsFrom_append (tails : Array α) (read rest : List α) :
    placementsFrom tails (read ++ rest) =
      placementsFrom tails read ++
        placementsFrom (read.foldl placeTail tails) rest := by
  induction read generalizing tails with
  | nil => rfl
  | cons value later induction =>
      rw [List.cons_append, placementsFrom, placementsFrom, List.cons_append,
        induction, List.foldl_cons]

theorem placements_append (read rest : List α) :
    placements (read ++ rest) =
      placements read ++ placementsFrom (tails read) rest :=
  placementsFrom_append #[] read rest

@[simp]
theorem length_placementsFrom (tails : Array α) (numbers : List α) :
    (placementsFrom tails numbers).length = numbers.length := by
  induction numbers generalizing tails with
  | nil => rfl
  | cons value later induction =>
      rw [placementsFrom, List.length_cons, induction, List.length_cons]

@[simp]
theorem length_placements (numbers : List α) :
    (placements numbers).length = numbers.length :=
  length_placementsFrom #[] numbers

theorem getElem?_placements_append (read : List α) (value : α) (rest : List α) :
    (placements (read ++ value :: rest))[read.length]? =
      some (tailIndex (tails read) value) := by
  rw [placements_append,
    List.getElem?_append_right (Nat.le_of_eq (length_placements read)),
    length_placements, Nat.sub_self]
  rfl

/-- An element is written at its index, and nothing else is changed. -/
theorem getElem?_tails_concat (read : List α) (value : α) (index : Nat) :
    (tails (read ++ [value]))[index]? =
      if index = tailIndex (tails read) value then some value
      else (tails read)[index]? := by
  rw [tails_eq_map_value, Piles.ofList_concat, tails_eq_map_value,
    tailIndex_map_value, Array.getElem?_map, Piles.tops_deal,
    apply_ite (Option.map Card.value), Array.getElem?_map]
  rfl

/-! ## The indices divide the list -/

variable [Std.TransOrd α] {numbers : List α}

/--
The index at which an element is written tells how long the subsequences
are that end there.
-/
theorem isLongestTo_of_getElem?_placements
    {position index : Nat}
    (placed : (placements numbers)[position]? = some index) :
    IsLongestTo numbers position (index + 1) := by
  induction numbers using List.reverseRecOn with
  | nil => cases placed
  | append_singleton numbers value induction =>
      have inside := (List.getElem?_eq_some_iff.mp placed).1
      rw [length_placements, List.length_append,
        List.length_singleton] at inside
      rcases Nat.lt_or_eq_of_le (Nat.le_of_lt_succ inside) with before | rfl
      · rw [placements_append,
          List.getElem?_append_left (by rwa [length_placements])] at placed
        exact (isLongestTo_append_left before).mpr (induction placed)
      · rw [getElem?_placements_append, Option.some.injEq, tails_eq_map_value,
          tailIndex_map_value] at placed
        exact placed ▸ (Piles.reflects_ofList numbers).isLongestTo_pileOf value

/--
The numbers in use are those of the piles: on top of each lies an
element written there.
-/
theorem mem_placements_iff {index : Nat} :
    index ∈ placements numbers ↔ index < lengthByPatience numbers := by
  constructor
  · intro member
    rcases List.mem_iff_getElem?.mp member with ⟨position, placed⟩
    rcases (isLongestTo_of_getElem?_placements placed).attained with
      ⟨positions, increasing, _, sameLength⟩
    have bounded :=
      (isLongest_lengthByPatience numbers).bound positions increasing
    rw [sameLength] at bounded
    exact bounded
  · intro inside
    rw [lengthByPatience, tails_eq_map_value, Array.size_map] at inside
    have found := Array.getElem?_eq_getElem inside
    have longest := (Piles.reflects_ofList numbers).top index _ found
    have inList := longest.lt_length
    rw [← length_placements numbers] at inList
    have placed := List.getElem?_eq_getElem inList
    have sameIndex := longest.unique (isLongestTo_of_getElem?_placements placed)
    rw [Nat.succ.inj sameIndex]
    exact List.mem_of_getElem? placed

theorem isDivision_placements (numbers : List α) :
    IsDivision numbers (lengthByPatience numbers) (placements numbers) where
  length := length_placements numbers
  bounded _ member := mem_placements_iff.mp member
  nonIncreasing := by
    intro index
    have longest : ∀ position ∈ positionsOf (placements numbers) index,
        IsLongestTo numbers position (index + 1) := by
      intro position member
      exact isLongestTo_of_getElem?_placements (mem_positionsOf.mp member)
    have ascending :
        (positionsOf (placements numbers) index).Pairwise (· < ·) :=
      List.pairwise_lt_range.filter _
    refine ⟨fun position member => (longest position member).lt_length,
      ascending, ?_⟩
    apply ascending.imp_of_mem
    intro first second firstMember secondMember before
    exact ((longest first firstMember).yieldsTo (longest second secondMember)
      (Nat.le_of_lt before)).notGreater

/--
The elements of a longest subsequence need as many parts as
patience sorting makes.
-/
theorem IsCover.lengthByPatience_le
    {cover : List (List Nat)} (isCover : IsCover numbers cover) :
    lengthByPatience numbers ≤ cover.length := by
  rcases (isLongest_lengthByPatience numbers).attained with
    ⟨positions, increasing, sameLength⟩
  rw [← sameLength]
  exact isCover.length_le increasing

theorem isLeast_length_isCover (numbers : List α) :
    IsLeast {count | ∃ cover, IsCover numbers cover ∧ cover.length = count}
      (lengthByPatience numbers) := by
  refine ⟨(isDivision_placements numbers).exists_isCover, ?_⟩
  rintro count ⟨cover, isCover, rfl⟩
  exact isCover.lengthByPatience_le

/--
Patience sorting divides a list into the fewest parts that never go up.  Each
element is written at its index of the tails and changes nothing else.  Elements
written at one index do not go up, the indices are those of the tails, and
neither a division nor a cover that overlaps has fewer parts.
-/
theorem placements_divide_into_fewest (numbers : List α) :
    (∀ read value rest, numbers = read ++ value :: rest →
        ∃ index, (placements numbers)[read.length]? = some index ∧
          (tails (read ++ [value]))[index]? = some value ∧
          ∀ other, other ≠ index →
            (tails (read ++ [value]))[other]? = (tails read)[other]?) ∧
      IsDivision numbers (lengthByPatience numbers) (placements numbers) ∧
      (∀ index, index ∈ placements numbers ↔ index < lengthByPatience numbers) ∧
      (∀ count labels, IsDivision numbers count labels →
        lengthByPatience numbers ≤ count) ∧
      IsLeast {count | ∃ cover, IsCover numbers cover ∧ cover.length = count}
        (lengthByPatience numbers) := by
  refine ⟨?_, isDivision_placements numbers, fun _ => mem_placements_iff, ?_,
    isLeast_length_isCover numbers⟩
  · rintro read value rest rfl
    refine ⟨_, getElem?_placements_append read value rest, ?_, ?_⟩
    · rw [getElem?_tails_concat, if_pos rfl]
    · intro other different
      rw [getElem?_tails_concat, if_neg different]
  · intro count labels division
    rcases division.exists_isCover with ⟨cover, isCover, rfl⟩
    exact isCover.lengthByPatience_le

/--
The twin `c` of `a` is written over it, and a third one lands on `b`, which
stands above it.
-/
theorem placements_of_twins :
    let earlier : List Keyed := [⟨2, "a"⟩, ⟨3, "b"⟩]
    let numbers := earlier ++ [⟨2, "c"⟩, ⟨1, "d"⟩, ⟨2, "e"⟩]
    Std.TransOrd Keyed ∧ placements numbers = [0, 1, 0, 0, 1] ∧
      (∃ index, [0, 1, 0, 0, 1][2]? = some index ∧
        (tails (earlier ++ [⟨2, "c"⟩]))[index]? = some ⟨2, "c"⟩ ∧
          ∀ other, other ≠ index →
            (tails (earlier ++ [⟨2, "c"⟩]))[other]? = (tails earlier)[other]?) ∧
      IsNonIncreasing numbers [0, 2, 3] ∧
      IsLeast {count | ∃ cover, IsCover numbers cover ∧ cover.length = count}
        2 := by
  intro earlier numbers
  have placed : placements numbers = [0, 1, 0, 0, 1] := by
    cbv
  have length : lengthByPatience numbers = 2 := by
    cbv
  rcases placements_divide_into_fewest numbers with
    ⟨written, division, _, _, isLeast⟩
  have writtenTwin := written earlier ⟨2, "c"⟩ [⟨1, "d"⟩, ⟨2, "e"⟩] rfl
  rw [placed] at writtenTwin division
  rw [length] at isLeast
  exact ⟨inferInstance, placed, writtenTwin, division.nonIncreasing 0, isLeast⟩

end Longest.Increasing
