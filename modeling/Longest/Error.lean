import Longest.Text.Outline

/-!
# Errors of tree building

What can be wrong with a tree given in level order.  An error names its cause
and the position at which it arose, counted in entries from 0; the wording is
a function of it.
-/

namespace Longest

/-- Why a tree could not be built from level order. -/
inductive Error where
  /-- The text is not enclosed in brackets. -/
  | missingBrackets
  /-- The token at this position is neither a word nor `null`. -/
  | invalidToken (position : Nat) (token : String)
  /-- The value at this position belongs to no node listed before it. -/
  | detachedNode (position : Nat)
  deriving DecidableEq, Repr

namespace Error

/-- The error in a sentence. -/
def message : Error → String
  | .missingBrackets => "level-order input must be enclosed in brackets"
  | .invalidToken position token =>
    "invalid token `" ++ token ++ "` at position " ++ toString position
  | .detachedNode position =>
    "value at position " ++ toString position ++ " has no parent node"

instance : Text.Outlined Error where
  outline
    | .missingBrackets => .atom "MissingBrackets"
    | .invalidToken position token =>
      .record "InvalidToken"
        (.more "position" (Text.outline position)
          (.last "token" (Text.outline token)))
    | .detachedNode position =>
      .record "DetachedNode" (.last "position" (Text.outline position))

end Error

end Longest
