import Longest.LevelOrder.Numbering
import Longest.Text.Blank
import Longest.Text.Numeral

/-!
# Level order as text

The text of a level order is a list in brackets with commas between its tokens;
a token is a numeral of a signed word or `null`.  Blanks may stand around the
whole text and around every token, and empty brackets are the empty tree.

Faults are looked for in this order: the brackets, then the tokens from left to
right, and only then the places of the values.
-/

namespace Longest

namespace LevelOrder

open Text

/--
What stands between the brackets that enclose a text; they are two
different characters.
-/
def inside? (text : List Char) : Option (List Char) :=
  match trim text with
  | '[' :: rest => if rest.getLast? = some ']' then some rest.dropLast else none
  | _ => none

/-- The tokens between the brackets, without the blanks around them. -/
def tokens (inside : List Char) : List (List Char) :=
  if (trim inside).isEmpty then []
  else ((trim inside).splitOn ',').map trim

/-- The entry that a token stands for; `none` if it is no token. -/
def entry? (token : List Char) : Option (Option Int64) :=
  if token = ['n', 'u', 'l', 'l'] then some none
  else (Numeral.word? token).map some

/-- The entry of the token at a position. -/
def readToken (token : List Char) (position : Nat) :
    Except Error (Option Int64) :=
  match entry? token with
  | some entry => .ok entry
  | none => .error (.invalidToken position (String.ofList token))

/-- The entries of a text; the first token that is none decides the error. -/
def readEntries (text : List Char) : Except Error (List (Option Int64)) :=
  match inside? text with
  | none => .error .missingBrackets
  | some inside =>
    (tokens inside).zipIdx.mapM fun (token, position) =>
      readToken token position

end LevelOrder

/-- The tree written in a text. -/
def Tree.ofText? (text : String) : Except Error (Tree Int64) :=
  (LevelOrder.readEntries text.toList).bind Tree.ofEntries?

end Longest
