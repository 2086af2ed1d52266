import Longest.Increasing.Piles
import Longest.Proofs.Increasing.Subsequence
import Mathlib.Data.List.Induction

/-!
# What the piles know

A card on pile `k` ends a longest increasing subsequence of length `k + 1`,
and the card on top of a pile is the last one of the list with that property.
A link leads from a card to the last earlier card whose longest subsequence
is shorter by one.

`Reflects` collects these facts.  It survives the dealing of one more element,
and holds of the piles of every list.
-/

namespace Longest.Increasing

variable {α : Type} [Ord α]

/--
A link says where a longest subsequence that ends at `position` comes from;
among the positions that qualify it is the last one.
-/
def IsLink (numbers : List α) (position : Nat) : Option Nat → Prop
  | none => IsLongestTo numbers position 1
  | some previous =>
      Precedes numbers previous position ∧
        ∃ length, IsLongestTo numbers previous length ∧
          IsLongestTo numbers position (length + 1) ∧
          ∀ other, other < position → IsLongestTo numbers other length →
            other ≤ previous

theorem isLink_append_left
    {numbers more : List α} {position : Nat} {link : Option Nat}
    (inside : position < numbers.length)
    (isLink : IsLink numbers position link) :
    IsLink (numbers ++ more) position link := by
  cases link with
  | none =>
      exact (isLongestTo_append_left inside).mpr isLink
  | some previous =>
      rcases isLink with ⟨⟨before, rises⟩, length, longest, longer, latest⟩
      have previousInside := Nat.lt_trans before inside
      refine ⟨⟨before, (risesAt_append_left previousInside inside).mpr rises⟩,
        length, (isLongestTo_append_left previousInside).mpr longest,
        (isLongestTo_append_left inside).mpr longer, ?_⟩
      intro other otherBefore otherLongest
      apply latest other otherBefore
      exact (isLongestTo_append_left (Nat.lt_trans otherBefore inside)).mp
        otherLongest

theorem IsLink.exists_isLongestTo
    {numbers : List α} {position : Nat} {link : Option Nat}
    (isLink : IsLink numbers position link) :
    ∃ pile, IsLongestTo numbers position (pile + 1) := by
  cases link with
  | none => exact ⟨0, isLink⟩
  | some previous =>
      rcases isLink with ⟨_, length, _, longer, _⟩
      exact ⟨length, longer⟩

namespace Piles

/-- What the piles know about the elements dealt. -/
structure Reflects (numbers : List α) (piles : Piles α) : Prop where
  /-- There is a link for every element. -/
  size : piles.links.size = numbers.length
  /-- The tops go up from left to right. -/
  rising :
    ∀ (first second : Nat) (lower upper : Card α), first < second →
      piles.tops[first]? = some lower → piles.tops[second]? = some upper →
        Rises lower.value upper.value
  /-- A top is an element of the list at its position. -/
  value :
    ∀ (pile : Nat) (card : Card α), piles.tops[pile]? = some card →
      numbers[card.position]? = some card.value
  /--
  The number of a pile tells how long the subsequences are that end on it.
  -/
  top :
    ∀ (pile : Nat) (card : Card α), piles.tops[pile]? = some card →
      IsLongestTo numbers card.position (pile + 1)
  /-- No later card belongs on the same pile. -/
  latest :
    ∀ position pile, IsLongestTo numbers position (pile + 1) →
      ∃ card, piles.tops[pile]? = some card ∧ position ≤ card.position
  link :
    ∀ position link, piles.links[position]? = some link →
      IsLink numbers position link

/--
What a search among the tops needs: they are elements of the list at the
positions that they name, and they go up.
-/
structure IsSearchable (numbers : List α) (piles : Piles α) : Prop where
  inRange : ∀ card ∈ piles.tops, numbers[card.position]? = some card.value
  rising :
    piles.tops.toList.Pairwise fun lower upper => Rises lower.value upper.value

theorem pileOf_le_size (piles : Piles α) (value : α) :
    piles.pileOf value ≤ piles.tops.size :=
  lowerBound_le_size _ _

/-- Dealing changes one top, or adds one on the right. -/
theorem tops_deal (piles : Piles α) (value : α) (pile : Nat) :
    (piles.deal value).tops[pile]? =
      if pile = piles.pileOf value then some ⟨piles.links.size, value⟩
      else piles.tops[pile]? := by
  have inside := piles.pileOf_le_size value
  simp only [deal]
  split_ifs with isNew same same
  · simp [same, isNew]
  · rw [Array.getElem?_push, if_neg (isNew ▸ same)]
  · rw [same, Array.getElem?_setIfInBounds_self_of_lt (by omega)]
  · rw [Array.getElem?_setIfInBounds_ne (Ne.symm same)]

theorem links_deal (piles : Piles α) (value : α) (position : Nat) :
    (piles.deal value).links[position]? =
      if position = piles.links.size then
        some (piles.leftOf (piles.pileOf value))
      else piles.links[position]? :=
  Array.getElem?_push

theorem reflects_empty : Reflects ([] : List α) empty where
  size := rfl
  rising := by simp [empty]
  value := by simp [empty]
  top := by simp [empty]
  latest := by
    intro position pile longest
    exact absurd longest.lt_length (Nat.not_lt_zero position)
  link := by simp [empty]

namespace Reflects

variable {numbers : List α} {piles : Piles α}

theorem exists_isLongestTo
    (reflects : Reflects numbers piles) {position : Nat}
    (inside : position < numbers.length) :
    ∃ pile, IsLongestTo numbers position (pile + 1) := by
  have known := Array.getElem?_eq_getElem (reflects.size ▸ inside)
  exact (reflects.link position _ known).exists_isLongestTo

theorem isSearchable
    (reflects : Reflects numbers piles) :
    IsSearchable numbers piles := by
  constructor
  · intro card member
    rcases Array.mem_iff_getElem?.mp member with ⟨pile, found⟩
    exact reflects.value pile card found
  · rw [List.pairwise_iff_getElem]
    intro first second firstInside secondInside before
    apply reflects.rising first second _ _ before
    · exact Array.getElem?_eq_getElem firstInside
    · exact Array.getElem?_eq_getElem secondInside

/-- The number of piles is the greatest length of an increasing subsequence. -/
theorem isLongest_size
    (reflects : Reflects numbers piles) :
    IsLongest numbers piles.tops.size := by
  constructor
  · cases sizeIs : piles.tops.size with
    | zero => exact ⟨[], isIncreasing_nil numbers, rfl⟩
    | succ pile =>
        have found := Array.getElem?_eq_getElem (sizeIs ▸ Nat.lt_add_one pile)
        rcases (reflects.top pile _ found).attained with
          ⟨positions, increasing, _, sameLength⟩
        exact ⟨positions, increasing, sameLength⟩
  · intro positions increasing
    cases lastIs : positions.getLast? with
    | none =>
        rw [List.getLast?_eq_none_iff.mp lastIs]
        exact Nat.zero_le _
    | some last =>
        have inside := increasing.inRange last (List.mem_of_getLast? lastIs)
        rcases reflects.exists_isLongestTo inside with ⟨pile, longest⟩
        rcases reflects.latest last pile longest with ⟨card, found, _⟩
        exact Nat.le_trans (longest.bound positions increasing lastIs)
          (Array.getElem?_eq_some_iff.mp found).1

variable [Std.TransOrd α]

/-- The tops below an element are those to the left of its pile. -/
theorem rises_iff_lt_pileOf
    (reflects : Reflects numbers piles) {pile : Nat} {card : Card α}
    (found : piles.tops[pile]? = some card) (value : α) :
    Rises card.value value ↔ pile < piles.pileOf value := by
  have partitioned :
      Partitioned (fun card => decide (Rises card.value value)) piles.tops := by
    intro first second earlier later before earlierFound laterFound laterRises
    have rises :=
      reflects.rising first second earlier later before earlierFound laterFound
    exact decide_eq_true (rises.trans (of_decide_eq_true laterRises))
  rw [pileOf, ← below_iff_lt_lowerBound partitioned found, decide_eq_true_iff]

/--
On one pile no card stands above an earlier one, so no top stands above
a card below it.
-/
theorem exists_top_not_rises
    (reflects : Reflects numbers piles) {position pile : Nat} {lower : α}
    (longest : IsLongestTo numbers position (pile + 1))
    (lowerAt : numbers[position]? = some lower) :
    ∃ card, piles.tops[pile]? = some card ∧ ¬ Rises lower card.value := by
  rcases reflects.latest position pile longest with ⟨card, found, notLater⟩
  refine ⟨card, found, ?_⟩
  rw [← risesAt_iff lowerAt (reflects.value pile card found)]
  exact longest.not_risesAt (reflects.top pile card found) notLater

/--
A position that rises to the new element belongs on a pile to the left of it.
-/
theorem lt_pileOf_of_rises
    (reflects : Reflects numbers piles) {position pile : Nat} {lower value : α}
    (longest : IsLongestTo numbers position (pile + 1))
    (lowerAt : numbers[position]? = some lower) (rises : Rises lower value) :
    pile < piles.pileOf value := by
  rcases reflects.exists_top_not_rises longest lowerAt with
    ⟨card, found, notRises⟩
  exact (reflects.rises_iff_lt_pileOf found value).mp
    (rises.of_not_rises_left notRises)

theorem exists_top_precedes
    (reflects : Reflects numbers piles) {pile : Nat} {value : α}
    (toTheLeft : pile < piles.pileOf value) :
    ∃ card, piles.tops[pile]? = some card ∧
      Precedes (numbers ++ [value]) card.position numbers.length := by
  have inside := Nat.lt_of_lt_of_le toTheLeft (piles.pileOf_le_size value)
  have found := Array.getElem?_eq_getElem inside
  have cardAt := reflects.value pile _ found
  have before := (List.getElem?_eq_some_iff.mp cardAt).1
  refine ⟨_, found, before, (risesAt_concat_length before).mpr ⟨_, cardAt, ?_⟩⟩
  exact (reflects.rises_iff_lt_pileOf found value).mpr toTheLeft

theorem isLongestTo_pileOf
    (reflects : Reflects numbers piles) (value : α) :
    IsLongestTo (numbers ++ [value]) numbers.length
      (piles.pileOf value + 1) := by
  constructor
  · cases pileIs : piles.pileOf value with
    | zero =>
        exact ⟨[numbers.length], isIncreasing_singleton (by simp), rfl, rfl⟩
    | succ pile =>
        rcases reflects.exists_top_precedes (pileIs ▸ Nat.lt_add_one pile) with
          ⟨card, found, precedes⟩
        rcases (reflects.top pile card found).attained with
          ⟨positions, increasing, ends, sameLength⟩
        refine ⟨positions ++ [numbers.length], ?_, by simp,
          by simp [sameLength]⟩
        refine isIncreasing_concat.mpr
          ⟨(isIncreasing_append_left increasing.inRange).mpr increasing,
            by simp, ?_⟩
        intro previous isLast
        rw [Option.mem_unique isLast ends]
        exact precedes
  · intro positions increasing ends
    rcases List.getLast?_eq_some_iff.mp ends with ⟨earlier, rfl⟩
    rcases isIncreasing_concat.mp increasing with ⟨earlierIncreasing, _, joined⟩
    rw [List.length_append, List.length_singleton, Nat.add_le_add_iff_right]
    cases previousIs : earlier.getLast? with
    | none =>
        rw [List.getLast?_eq_none_iff.mp previousIs]
        exact Nat.zero_le _
    | some previous =>
        rcases joined previous previousIs with ⟨before, rises⟩
        rcases (risesAt_concat_length before).mp rises with
          ⟨lower, lowerAt, lowerRises⟩
        rcases reflects.exists_isLongestTo before with ⟨pile, longest⟩
        have bounded := ((isLongestTo_append_left before).mpr longest).bound
          earlier earlierIncreasing previousIs
        exact Nat.le_trans bounded
          (reflects.lt_pileOf_of_rises longest lowerAt lowerRises)

theorem isLink_leftOf
    (reflects : Reflects numbers piles) (value : α) :
    IsLink (numbers ++ [value]) numbers.length
      (piles.leftOf (piles.pileOf value)) := by
  have longer := reflects.isLongestTo_pileOf value
  cases pileIs : piles.pileOf value with
  | zero =>
      rw [pileIs] at longer
      exact longer
  | succ pile =>
      rcases reflects.exists_top_precedes (pileIs ▸ Nat.lt_add_one pile) with
        ⟨card, found, precedes⟩
      rw [leftOf, found, Option.map_some]
      refine ⟨precedes, pile + 1,
        (isLongestTo_append_left precedes.1).mpr (reflects.top pile card found),
        pileIs ▸ longer, ?_⟩
      intro other otherBefore otherLongest
      rcases reflects.latest other pile
        ((isLongestTo_append_left otherBefore).mp otherLongest) with
          ⟨card', found', notLater⟩
      rw [found] at found'
      exact Option.some.inj found' ▸ notLater

/--
The step of a deal: all that is known stays true with one more element.  The
tops keep rising, because what the new element covers is not below it, but below
the tops on the right.
-/
theorem deal
    (reflects : Reflects numbers piles) (value : α) :
    Reflects (numbers ++ [value]) (piles.deal value) where
  size := by
    simp [Piles.deal, reflects.size]
  rising := by
    intro first second lower upper before lowerFound upperFound
    rw [tops_deal] at lowerFound upperFound
    split_ifs at lowerFound upperFound with firstIs secondIs secondIs
    · omega
    · have inside := (Array.getElem?_eq_some_iff.mp upperFound).1
      have replaced := Array.getElem?_eq_getElem (Nat.lt_trans before inside)
      rw [← Option.some.inj lowerFound]
      have rises :=
        reflects.rising first second _ upper before replaced upperFound
      apply rises.of_not_rises_left
      rw [reflects.rises_iff_lt_pileOf replaced, firstIs]
      exact Nat.lt_irrefl _
    · rw [← Option.some.inj upperFound]
      exact (reflects.rises_iff_lt_pileOf lowerFound value).mpr
        (secondIs ▸ before)
    · exact reflects.rising first second lower upper before lowerFound
        upperFound
  value := by
    intro pile card found
    rw [tops_deal] at found
    split_ifs at found with isPile
    · rw [← Option.some.inj found]
      simp [reflects.size]
    · have cardAt := reflects.value pile card found
      rw [List.getElem?_append_left (List.getElem?_eq_some_iff.mp cardAt).1]
      exact cardAt
  top := by
    intro pile card found
    rw [tops_deal] at found
    split_ifs at found with isPile
    · rw [← Option.some.inj found, isPile, reflects.size]
      exact reflects.isLongestTo_pileOf value
    · have before :=
        (List.getElem?_eq_some_iff.mp (reflects.value pile card found)).1
      exact (isLongestTo_append_left before).mpr (reflects.top pile card found)
  latest := by
    intro position pile longest
    rw [tops_deal, reflects.size]
    have inside := longest.lt_length
    rw [List.length_append, List.length_singleton] at inside
    rcases Nat.lt_or_eq_of_le (Nat.le_of_lt_succ inside) with before | rfl
    · split_ifs with isPile
      · exact ⟨_, rfl, Nat.le_of_lt before⟩
      · exact reflects.latest position pile
          ((isLongestTo_append_left before).mp longest)
    · have samePile := longest.unique (reflects.isLongestTo_pileOf value)
      rw [if_pos (Nat.succ.inj samePile)]
      exact ⟨_, rfl, Nat.le_refl _⟩
  link := by
    intro position link found
    rw [links_deal] at found
    split_ifs at found with isLast
    · rw [← Option.some.inj found, isLast, reflects.size]
      exact reflects.isLink_leftOf value
    · have before := (Array.getElem?_eq_some_iff.mp found).1
      exact isLink_append_left (reflects.size ▸ before)
        (reflects.link position link found)

end Reflects

theorem ofList_concat (numbers : List α) (value : α) :
    ofList (numbers ++ [value]) = (ofList numbers).deal value :=
  List.foldl_concat deal empty value numbers

/-- The piles of a list reflect it. -/
theorem reflects_ofList [Std.TransOrd α] (numbers : List α) :
    Reflects numbers (ofList numbers) := by
  induction numbers using List.reverseRecOn with
  | nil => exact reflects_empty
  | append_singleton numbers value induction =>
      rw [ofList_concat]
      exact induction.deal value

end Piles

end Longest.Increasing
