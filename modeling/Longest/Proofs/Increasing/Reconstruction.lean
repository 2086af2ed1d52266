import Longest.Proofs.Increasing.Piles
import Mathlib.Data.List.Forall2

/-!
# The subsequence found is a longest one

Following the links from the top of the last pile down to a card without
predecessor gives the positions of an increasing subsequence, with one
position for each pile.  Links go down, so the walk ends and meets positions
of the list only.
-/

namespace Longest.Increasing

variable {α : Type}

/-! ## Elements at selected positions -/

theorem forall₂_select
    {numbers : List α} {positions : List Nat}
    (inside : ∀ position ∈ positions, position < numbers.length) :
    List.Forall₂ (fun position element => numbers[position]? = some element)
      positions (select numbers positions) := by
  induction positions with
  | nil => exact List.Forall₂.nil
  | cons position positions induction =>
      rcases List.forall_mem_cons.mp inside with
        ⟨positionInside, positionsInside⟩
      have found := List.getElem?_eq_getElem positionInside
      have selected :
          select numbers (position :: positions) =
            numbers[position] :: select numbers positions := by
        simp [select, found]
      rw [selected]
      exact List.Forall₂.cons found (induction positionsInside)

theorem select_append (numbers : List α) (first second : List Nat) :
    select numbers (first ++ second) =
      select numbers first ++ select numbers second :=
  List.filterMap_append

theorem select_singleton
    {numbers : List α} {position : Nat} {element : α}
    (found : numbers[position]? = some element) :
    select numbers [position] = [element] := by
  simp [select, found]

theorem select_append_left
    {numbers more : List α} {positions : List Nat}
    (inside : ∀ position ∈ positions, position < numbers.length) :
    select (numbers ++ more) positions = select numbers positions := by
  simp only [select, List.getElem?_toArray]
  apply List.filterMap_congr
  intro position member
  exact List.getElem?_append_left (inside position member)

theorem getLast?_select
    {numbers : List α} {positions : List Nat}
    (inside : ∀ position ∈ positions, position < numbers.length) :
    (select numbers positions).getLast? =
      positions.getLast?.bind (numbers[·]?) := by
  cases positions using List.reverseRecOn with
  | nil => rfl
  | append_singleton earlier last =>
      have lastInside := inside last
        (List.mem_append_right earlier (List.mem_singleton_self last))
      have found := List.getElem?_eq_getElem lastInside
      rw [select_append, select_singleton found, List.getLast?_concat,
        List.getLast?_concat, Option.bind_some, found]

variable [Ord α]

theorem select_pairwise_rises
    {numbers : List α} {positions : List Nat}
    (increasing : IsIncreasing numbers positions) :
    (select numbers positions).Pairwise Rises := by
  rw [select, List.pairwise_filterMap]
  apply increasing.rising.imp
  rintro first second rises lower lowerAt upper upperAt
  rw [List.getElem?_toArray] at lowerAt upperAt
  exact (risesAt_iff lowerAt upperAt).mp rises

/-! ## The walk along the links -/

theorem followLinks_of_none
    {links : Array (Option Nat)} {position : Nat} (later : List Nat)
    (linkIs : links[position]? = some none) :
    followLinks links position later = position :: later := by
  rw [followLinks, linkIs]

theorem followLinks_of_some
    {links : Array (Option Nat)} {position previous : Nat} (later : List Nat)
    (linkIs : links[position]? = some (some previous))
    (before : previous < position) :
    followLinks links position later =
      followLinks links previous (position :: later) := by
  rw [followLinks, linkIs]
  exact if_pos before

/--
What was met before the walk came here stays behind what it meets from here on.
-/
theorem followLinks_eq_append
    (links : Array (Option Nat)) (position : Nat) (later : List Nat) :
    followLinks links position later =
      followLinks links position [] ++ later := by
  induction position using Nat.strong_induction_on generalizing later with
  | h position induction =>
      rw [followLinks, followLinks]
      split
      · next previous _ =>
          split_ifs with before
          · rw [induction previous before (position :: later),
              induction previous before [position], List.append_assoc,
              List.singleton_append]
          · rfl
      · rfl

/--
The walk from a position ends there and then, or goes on from the last earlier
position whose longest subsequence is shorter by one.
-/
theorem Piles.Reflects.followLinks_cases
    {numbers : List α} {piles : Piles α}
    (reflects : Piles.Reflects numbers piles)
    {position : Nat} (inside : position < numbers.length) :
    (IsLongestTo numbers position 1 ∧
        followLinks piles.links position [] = [position]) ∨
      ∃ previous length, Precedes numbers previous position ∧
        IsLongestTo numbers previous length ∧
        IsLongestTo numbers position (length + 1) ∧
        (∀ other, other < position → IsLongestTo numbers other length →
          other ≤ previous) ∧
        followLinks piles.links position [] =
          followLinks piles.links previous [] ++ [position] := by
  have inLinks : position < piles.links.size := reflects.size ▸ inside
  have known := Array.getElem?_eq_getElem inLinks
  have isLink := reflects.link position _ known
  cases linkIs : piles.links[position] with
  | none =>
      rw [linkIs] at known isLink
      exact Or.inl ⟨isLink, followLinks_of_none [] known⟩
  | some previous =>
      rw [linkIs] at known isLink
      rcases isLink with ⟨precedes, length, longest, longer, latest⟩
      exact Or.inr ⟨previous, length, precedes, longest, longer, latest,
        (followLinks_of_some [] known precedes.1).trans
          (followLinks_eq_append piles.links previous [position])⟩

variable [Std.TransOrd α]

/-- The walk from any position visits a longest subsequence that ends there. -/
theorem Piles.Reflects.followLinks_isLongestTo
    {numbers : List α} {piles : Piles α}
    (reflects : Piles.Reflects numbers piles)
    {position : Nat} (inside : position < numbers.length) :
    let visited := followLinks piles.links position []
    IsIncreasing numbers visited ∧ visited.getLast? = some position ∧
      IsLongestTo numbers position visited.length := by
  induction position using Nat.strong_induction_on with
  | h position induction =>
      intro visited
      rcases reflects.followLinks_cases inside with
        ⟨longest, single⟩ |
          ⟨previous, length, precedes, longest, longer, _, continued⟩
      · rw [show visited = [position] from single]
        exact ⟨isIncreasing_singleton inside, rfl, longest⟩
      · have before := precedes.1
        rcases induction previous before (Nat.lt_trans before inside) with
          ⟨increasing, ends, longestBefore⟩
        have sameLength := longestBefore.unique longest
        rw [
          show visited = followLinks piles.links previous [] ++ [position] from
            continued,
          List.length_append, List.length_singleton, sameLength]
        refine ⟨isIncreasing_concat.mpr ⟨increasing, inside, ?_⟩, by simp,
          longer⟩
        intro last isLast
        rw [Option.mem_unique isLast ends]
        exact precedes

/--
The walk starts at the last position that ends a longest subsequence of all; in
an empty list there is none.
-/
theorem longestPositions_cases (numbers : List α) :
    (longestPositions numbers = [] ∧ IsLongest numbers 0) ∨
      ∃ last length,
        longestPositions numbers =
          followLinks (Piles.ofList numbers).links last [] ∧
        IsLongest numbers length ∧ IsLongestTo numbers last length ∧
        ∀ other, IsLongestTo numbers other length → other ≤ last := by
  have reflects := Piles.reflects_ofList numbers
  have longest := reflects.isLongest_size
  simp only [longestPositions, Array.back?_eq_getElem?]
  split
  · next noTop =>
      rw [Array.getElem?_eq_none_iff] at noTop
      have noPile : (Piles.ofList numbers).tops.size = 0 := by omega
      rw [noPile] at longest
      exact Or.inl ⟨rfl, longest⟩
  · next card lastTop =>
      have nonempty := (Array.getElem?_eq_some_iff.mp lastTop).1
      have isLast := Nat.sub_add_cancel (Nat.zero_lt_of_lt nonempty)
      refine Or.inr
        ⟨card.position, _, rfl, longest, isLast ▸ reflects.top _ card lastTop,
          ?_⟩
      intro other otherLongest
      rw [← isLast] at otherLongest
      rcases reflects.latest other _ otherLongest with
        ⟨card', lastTop', notLater⟩
      rw [lastTop] at lastTop'
      exact Option.some.inj lastTop' ▸ notLater

theorem longestPositions_isLongest (numbers : List α) :
    IsIncreasing numbers (longestPositions numbers) ∧
      IsLongest numbers (longestPositions numbers).length := by
  rcases longestPositions_cases numbers with
    ⟨nothing, longest⟩ | ⟨last, length, walked, longest, longestTo, _⟩
  · rw [nothing]
    exact ⟨isIncreasing_nil numbers, longest⟩
  · have reflects := Piles.reflects_ofList numbers
    rcases reflects.followLinks_isLongestTo longestTo.lt_length with
      ⟨increasing, _, longestTo'⟩
    rw [walked]
    exact ⟨increasing, longestTo'.unique longestTo ▸ longest⟩

/--
The subsequence found is a longest one.  Each search finds the tops in order and
ends at one of them or right behind them, and each link leads down; the elements
returned are the very ones at the positions found, and they rise strictly; no
increasing subsequence is longer.
-/
theorem longest_selects_longest (numbers : List α) :
    (∀ dealt value rest, numbers = dealt ++ value :: rest →
        (Piles.ofList dealt).IsSearchable dealt ∧
          (Piles.ofList dealt).pileOf value ≤ (Piles.ofList dealt).tops.size) ∧
      ((Piles.ofList numbers).links.size = numbers.length ∧
        ∀ position previous : Nat,
          (Piles.ofList numbers).links[position]? = some (some previous) →
          previous < position) ∧
      IsIncreasing numbers (longestPositions numbers) ∧
      List.Forall₂ (fun position element => numbers[position]? = some element)
        (longestPositions numbers) (longest numbers) ∧
      (longest numbers).Pairwise Rises ∧
      IsLongest numbers (longest numbers).length := by
  have reflects := Piles.reflects_ofList numbers
  rcases longestPositions_isLongest numbers with ⟨increasing, isLongest⟩
  have selected := forall₂_select increasing.inRange
  refine ⟨?_, ⟨reflects.size, ?_⟩, increasing, selected,
    select_pairwise_rises increasing, ?_⟩
  · intro dealt value rest _
    exact ⟨(Piles.reflects_ofList dealt).isSearchable,
      Piles.pileOf_le_size _ value⟩
  · intro position previous found
    exact (reflects.link position (some previous) found).1.1
  · rw [longest, ← selected.length_eq]
    exact isLongest

/--
Of two elements with one key, of which neither rises to the other, the
later one is chosen.
-/
theorem longest_of_twins :
    let numbers : List Keyed := [⟨2, "a"⟩, ⟨1, "b"⟩, ⟨1, "c"⟩, ⟨3, "d"⟩]
    Std.TransOrd Keyed ∧ longest numbers = [⟨1, "c"⟩, ⟨3, "d"⟩] ∧
      IsLongest numbers 2 := by
  intro numbers
  have found : longest numbers = [⟨1, "c"⟩, ⟨3, "d"⟩] := by
    cbv
  rcases longest_selects_longest numbers with ⟨_, _, _, _, _, isLongest⟩
  rw [found] at isLongest
  exact ⟨inferInstance, found, isLongest⟩

end Longest.Increasing
