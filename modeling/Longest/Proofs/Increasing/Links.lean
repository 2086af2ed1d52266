import Longest.Proofs.Increasing.Reconstruction

/-!
# The forest of links

Every position has a walk of its own along the links, not only the top of the
last pile.  `LinkWalk` describes such a walk without a look at where a link
leads: it goes on as long as there is a link, and has no way out where the
table of links ends.

Links lead down to cards whose longest subsequence is shorter by one, so each
walk ends, and after as many positions as the longest subsequence is long that
ends where the walk begins.
-/

namespace Longest.Increasing

/--
A walk along the links from the given position down to one without a link; the
list holds the positions in the order of the walk.
-/
inductive LinkWalk (links : Array (Option Nat)) : Nat → List Nat → Prop where
  /-- There is no link here. -/
  | last {position : Nat} (unlinked : links[position]? = some none) :
      LinkWalk links position [position]
  /-- The walk goes on where the link leads. -/
  | onward {position previous : Nat} {visited : List Nat}
      (linked : links[position]? = some (some previous))
      (walk : LinkWalk links previous visited) :
      LinkWalk links position (position :: visited)

namespace LinkWalk

variable {links : Array (Option Nat)} {position : Nat}
  {visited visited' : List Nat}

theorem head?_eq (walk : LinkWalk links position visited) :
    visited.head? = some position := by
  cases walk <;> rfl

/-- At each position the table leaves no choice. -/
theorem unique
    (walk : LinkWalk links position visited)
    (walk' : LinkWalk links position visited') :
    visited = visited' := by
  induction walk generalizing visited' with
  | last unlinked =>
      cases walk' with
      | last _ => rfl
      | onward linked _ =>
          rw [unlinked] at linked
          cases linked
  | onward linked walk induction =>
      cases walk' with
      | last unlinked =>
          rw [linked] at unlinked
          cases unlinked
      | onward linked' walk' =>
          rw [linked] at linked'
          cases linked'
          rw [induction walk']

end LinkWalk

variable {α : Type} [Ord α]

/--
Links lead down, so the positions that `followLinks` meets are
those of the walk.
-/
theorem Piles.Reflects.linkWalk_followLinks
    {numbers : List α} {piles : Piles α}
    (reflects : Piles.Reflects numbers piles)
    {position : Nat} (inside : position < numbers.length) :
    LinkWalk piles.links position
      (followLinks piles.links position []).reverse := by
  induction position using Nat.strong_induction_on with
  | h position induction =>
      have inLinks : position < piles.links.size := reflects.size ▸ inside
      have known := Array.getElem?_eq_getElem inLinks
      cases linkIs : piles.links[position] with
      | none =>
          rw [linkIs] at known
          rw [followLinks_of_none [] known]
          exact .last known
      | some previous =>
          rw [linkIs] at known
          have before := (reflects.link position (some previous) known).1.1
          rw [followLinks_of_some [] known before, followLinks_eq_append,
            List.reverse_append, List.reverse_singleton, List.singleton_append]
          exact .onward known
            (induction previous before (Nat.lt_trans before inside))

variable [Std.TransOrd α]

/--
From every position there is exactly one walk along the finished links.  It goes
down strictly and visits as many positions as the longest increasing subsequence
has that ends at the position; and backwards the elements visited rise strictly
up to the element there.
-/
theorem linkWalk_of_any_position
    (numbers : List α) {position : Nat}
    (inside : position < numbers.length) :
    ∃ visited,
      (∀ visited',
        LinkWalk (Piles.ofList numbers).links position visited' ↔
          visited' = visited) ∧
      followLinks (Piles.ofList numbers).links position [] = visited.reverse ∧
      visited.head? = some position ∧ visited.Pairwise (· > ·) ∧
      IsLongestTo numbers position visited.length ∧
      List.Forall₂ (fun place element => numbers[place]? = some element)
        visited.reverse (select numbers visited.reverse) ∧
      (select numbers visited.reverse).Pairwise Rises ∧
      (select numbers visited.reverse).getLast? = numbers[position]? := by
  have reflects := Piles.reflects_ofList numbers
  have walk := reflects.linkWalk_followLinks inside
  rcases reflects.followLinks_isLongestTo inside with
    ⟨increasing, ends, longest⟩
  refine ⟨(followLinks (Piles.ofList numbers).links position []).reverse, ?_⟩
  rw [List.reverse_reverse, List.length_reverse, List.pairwise_reverse]
  refine ⟨?_, rfl, walk.head?_eq, increasing.ascending, longest,
    forall₂_select increasing.inRange, select_pairwise_rises increasing, ?_⟩
  · intro visited'
    constructor
    · intro walk'
      exact walk'.unique walk
    · rintro rfl
      exact walk
  · rw [getLast?_select increasing.inRange, ends, Option.bind_some]

/--
The walk from `c`, which is not selected: the positions selected are 3, 4 and 5.
-/
theorem linkWalk_of_competitor :
    let numbers : List Keyed :=
      [⟨1, "a"⟩, ⟨2, "b"⟩, ⟨4, "c"⟩, ⟨1, "d"⟩, ⟨2, "e"⟩, ⟨3, "f"⟩]
    let links := #[none, some 0, some 1, none, some 3, some 4]
    Std.TransOrd Keyed ∧ 2 < numbers.length ∧
      longestPositions numbers = [3, 4, 5] ∧
      (Piles.ofList numbers).links = links ∧ LinkWalk links 2 [2, 1, 0] ∧
      IsLongestTo numbers 2 3 := by
  intro numbers links
  have selected : longestPositions numbers = [3, 4, 5] := by
    cbv
  have linked : (Piles.ofList numbers).links = links := by
    cbv
  have walk : LinkWalk links 2 [2, 1, 0] :=
    .onward rfl (.onward rfl (.last rfl))
  have inside : 2 < numbers.length := by
    decide
  rcases linkWalk_of_any_position numbers inside with
    ⟨visited, unique, _, _, _, longest, _⟩
  rw [linked] at unique
  rw [← (unique [2, 1, 0]).mp walk] at longest
  exact ⟨inferInstance, inside, selected, linked, walk, longest⟩

end Longest.Increasing
