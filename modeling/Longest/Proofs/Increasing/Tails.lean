import Longest.Proofs.Increasing.Agreement

/-!
# Tails are least ends

After any elements the tail at index `k` ends an increasing subsequence of
length `k + 1`, and no such subsequence ends in a smaller element.  The tails
are the values on top of the piles, so this is a statement about tops: whatever
ends a subsequence of length `k + 1` lies on pile `k` or to the right of it,
where nothing is below the top of pile `k`.
-/

namespace Longest.Increasing

variable {α : Type} [Ord α]

/--
The element ends an increasing subsequence of the given length, and no
smaller one does.
-/
structure IsLeastEnd (numbers : List α) (length : Nat) (tail : α) : Prop where
  attained :
    ∃ positions last, IsIncreasing numbers positions ∧
      positions.length = length ∧ positions.getLast? = some last ∧
      numbers[last]? = some tail
  least :
    ∀ positions last other, IsIncreasing numbers positions →
      positions.length = length → positions.getLast? = some last →
      numbers[last]? = some other → ¬ Rises other tail

theorem exists_top_of_getElem?_tails
    {numbers : List α} {index : Nat} {tail : α}
    (found : (tails numbers)[index]? = some tail) :
    ∃ card, (Piles.ofList numbers).tops[index]? = some card ∧
      card.value = tail := by
  rw [tails_eq_map_value, Array.getElem?_map, Option.map_eq_some_iff] at found
  exact found

variable [Std.TransOrd α]

/--
What stands below the top of a pile stands below all tops to the right of it.
-/
theorem Piles.Reflects.rises_of_le
    {numbers : List α} {piles : Piles α}
    (reflects : Piles.Reflects numbers piles)
    {first second : Nat} {lower upper : Card α} (ordered : first ≤ second)
    (lowerFound : piles.tops[first]? = some lower)
    (upperFound : piles.tops[second]? = some upper)
    {value : α} (rises : Rises value lower.value) :
    Rises value upper.value := by
  rcases Nat.lt_or_eq_of_le ordered with before | rfl
  · exact rises.trans
      (reflects.rising first second lower upper before lowerFound upperFound)
  · rw [lowerFound] at upperFound
    exact Option.some.inj upperFound ▸ rises

/--
The top is the least end: the pile on which any other end belongs is no further
to the left, and its top does not stand above that end.
-/
theorem Piles.Reflects.isLeastEnd_top
    {numbers : List α} {piles : Piles α}
    (reflects : Piles.Reflects numbers piles)
    {pile : Nat} {card : Card α} (found : piles.tops[pile]? = some card) :
    IsLeastEnd numbers (pile + 1) card.value := by
  constructor
  · rcases (reflects.top pile card found).attained with
      ⟨positions, increasing, ends, sameLength⟩
    exact ⟨positions, card.position, increasing, sameLength, ends,
      reflects.value pile card found⟩
  · intro positions last other increasing sameLength ends otherAt rises
    have inside := increasing.inRange last (List.mem_of_getLast? ends)
    rcases reflects.exists_isLongestTo inside with ⟨pile', longest⟩
    have toTheRight : pile ≤ pile' := by
      have bounded := longest.bound positions increasing ends
      rw [sameLength] at bounded
      exact Nat.le_of_succ_le_succ bounded
    rcases reflects.exists_top_not_rises longest otherAt with
      ⟨card', found', notRises⟩
    exact notRises (reflects.rises_of_le toTheRight found found' rises)

/--
What the tails are after every beginning of a list.  They rise, so each search
divides them at the place it finds; there are as many as the longest increasing
subsequence is long; and each of them is the least end of an increasing
subsequence of its length.
-/
theorem tails_are_least_ends (read rest : List α) :
    tails (read ++ rest) = rest.foldl placeTail (tails read) ∧
      (tails read).toList.Pairwise Rises ∧
      (∀ value index tail, (tails read)[index]? = some tail →
        (Rises tail value ↔ index < tailIndex (tails read) value)) ∧
      IsLongest read (tails read).size ∧
      ∀ index tail, (tails read)[index]? = some tail →
        IsLeastEnd read (index + 1) tail := by
  have reflects := Piles.reflects_ofList read
  refine ⟨List.foldl_append, ?_, ?_, isLongest_lengthByPatience read, ?_⟩
  · rw [tails_eq_map_value, Array.toList_map, List.pairwise_map]
    exact reflects.isSearchable.rising
  · intro value index tail found
    rcases exists_top_of_getElem?_tails found with ⟨card, cardFound, rfl⟩
    rw [tails_eq_map_value, tailIndex_map_value]
    exact reflects.rises_iff_lt_pileOf cardFound value
  · intro index tail found
    rcases exists_top_of_getElem?_tails found with ⟨card, cardFound, rfl⟩
    exact reflects.isLeastEnd_top cardFound

/-- The twin of a tail has replaced it, and the next element lowers the twin. -/
theorem tails_of_twins :
    let numbers : List Keyed := [⟨2, "a"⟩, ⟨4, "b"⟩, ⟨1, "c"⟩, ⟨4, "d"⟩]
    Std.TransOrd Keyed ∧ tails numbers = #[⟨1, "c"⟩, ⟨4, "d"⟩] ∧
      IsLeastEnd numbers 2 ⟨4, "d"⟩ ∧
      tails (numbers ++ [⟨3, "e"⟩]) = #[⟨1, "c"⟩, ⟨3, "e"⟩] := by
  intro numbers
  have found : tails numbers = #[⟨1, "c"⟩, ⟨4, "d"⟩] := by
    cbv
  rcases tails_are_least_ends numbers [⟨3, "e"⟩] with
    ⟨continued, _, _, _, leastEnds⟩
  rw [found] at continued leastEnds
  refine ⟨inferInstance, found, leastEnds 1 ⟨4, "d"⟩ rfl, continued.trans ?_⟩
  cbv

end Longest.Increasing
