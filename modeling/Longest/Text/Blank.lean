/-!
# Blank characters

The characters with the Unicode property `White_Space`, and the removal of
blanks from both ends of a text.
-/

namespace Longest.Text

/--
The code points with the property `White_Space`, as ranges with
both ends included.
-/
def blankRanges : List (Nat × Nat) :=
  [(0x09, 0x0D), (0x20, 0x20), (0x85, 0x85), (0xA0, 0xA0), (0x1680, 0x1680),
    (0x2000, 0x200A), (0x2028, 0x2029), (0x202F, 0x202F), (0x205F, 0x205F),
    (0x3000, 0x3000)]

/-- The character has the property `White_Space`. -/
def isBlank (character : Char) : Bool :=
  blankRanges.any
    fun (first, last) => first ≤ character.toNat && character.toNat ≤ last

/-- The text from its first character that is not blank. -/
def trimLeft (text : List Char) : List Char :=
  text.dropWhile isBlank

/-- The text up to its last character that is not blank. -/
def trimRight (text : List Char) : List Char :=
  (trimLeft text.reverse).reverse

/-- The text without the blanks at its two ends. -/
def trim (text : List Char) : List Char :=
  trimRight (trimLeft text)

end Longest.Text
