/-!
# Decimal numerals

A numeral is one sign or none, followed by at least one of the digits `0` to
`9`.  Leading zeros are allowed and nothing else may surround the digits.
`word?` further demands that the number fits into a signed word of 64 bits.
-/

namespace Longest.Text.Numeral

/-- The number that one of the characters `0` to `9` stands for. -/
def digit? (character : Char) : Option Nat :=
  if '0' ≤ character && character ≤ '9' then
    some (character.toNat - '0'.toNat)
  else
    none

/--
Continues a number by further digits; `none` if one of the
characters is no digit.
-/
def continueBy : Nat → List Char → Option Nat
  | number, [] => some number
  | number, character :: rest =>
    match digit? character with
    | some digit => continueBy (10 * number + digit) rest
    | none => none

/-- The number written by a nonempty run of digits. -/
def natural? : List Char → Option Nat
  | [] => none
  | digits => continueBy 0 digits

/-- The number written by a run of digits with at most one sign in front. -/
def integer? : List Char → Option Int
  | '+' :: digits => (natural? digits).map Int.ofNat
  | '-' :: digits => (natural? digits).map fun number => -Int.ofNat number
  | digits => (natural? digits).map Int.ofNat

/-- The number fits into a signed word of 64 bits. -/
def inWordRange (number : Int) : Bool :=
  Int64.minValue.toInt ≤ number && number ≤ Int64.maxValue.toInt

/--
The word written by a numeral; `none` if it is no numeral or out of range.
-/
def word? (text : List Char) : Option Int64 :=
  match integer? text with
  | some number =>
    if inWordRange number then some (Int64.ofInt number) else none
  | none => none

end Longest.Text.Numeral
