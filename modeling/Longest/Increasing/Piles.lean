import Longest.Increasing.Basic
import Longest.Search

/-!
# One longest increasing subsequence

Elements are dealt onto piles as cards that remember their positions.  A card
goes onto the first pile whose top does not stand below it, or starts a new
pile, and is linked to the card that is on top of the pile to its left at that
moment.  Following the links from the last pile's top gives one longest
increasing subsequence, from its end to its start.
-/

namespace Longest.Increasing

variable {α : Type} [Ord α]

/-- An element with its position in the list. -/
structure Card (α : Type) where
  position : Nat
  value : α

/-- The piles after some elements were dealt. -/
structure Piles (α : Type) where
  /-- The card on top of each pile, from left to right. -/
  tops : Array (Card α)
  /--
  For each position dealt so far the position of its predecessor, if it has one.
  -/
  links : Array (Option Nat)

namespace Piles

/-- No card dealt yet. -/
def empty : Piles α :=
  ⟨#[], #[]⟩

/-- The pile on which an element goes. -/
def pileOf (piles : Piles α) (value : α) : Nat :=
  lowerBound (fun card => decide (Rises card.value value)) piles.tops

/-- The position on top of the pile to the left of the given one. -/
def leftOf (piles : Piles α) : Nat → Option Nat
  | 0 => none
  | pile + 1 => piles.tops[pile]?.map Card.position

/-- Deals the next element of the list. -/
def deal (piles : Piles α) (value : α) : Piles α :=
  let pile := piles.pileOf value
  let link := piles.leftOf pile
  let card := ⟨piles.links.size, value⟩
  { tops :=
      if pile = piles.tops.size then piles.tops.push card
      else piles.tops.setIfInBounds pile card
    links := piles.links.push link }

/-- Deals a whole list. -/
def ofList (numbers : List α) : Piles α :=
  numbers.foldl deal empty

end Piles

/--
Follows the links from `position` down to a card without predecessor and puts
the positions met in front of `later`, so that the result goes up.  A link
always leads to an earlier position.
-/
def followLinks
    (links : Array (Option Nat)) (position : Nat) (later : List Nat) :
    List Nat :=
  match links[position]? with
  | some (some previous) =>
    if previous < position then
      followLinks links previous (position :: later)
    else
      position :: later
  | _ => position :: later
termination_by position

/-- The positions of the subsequence that ends on top of the last pile. -/
def longestPositions (numbers : List α) : List Nat :=
  let piles := Piles.ofList numbers
  match piles.tops.back? with
  | none => []
  | some card => followLinks piles.links card.position []

/-- One longest strictly increasing subsequence. -/
def longest (numbers : List α) : List α :=
  select numbers (longestPositions numbers)

end Longest.Increasing
