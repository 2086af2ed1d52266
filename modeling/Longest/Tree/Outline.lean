import Longest.Text.Outline
import Longest.Tree.Basic

/-!
# Outlines of trees

An absent tree is outlined as `None` and a node as a record with its value and
its two subtrees, wrapped in `Some`.
-/

namespace Longest.Tree

open Longest.Text

variable {α : Type}

/-- The outline of a tree from the outlines of its values. -/
def outlineBy (value : α → Outline) : Tree α → Outline
  | empty => .atom "None"
  | node root left right =>
    .wrapped "Some"
      (.record "TreeNode"
        (.more "val" (value root)
          (.more "left" (left.outlineBy value)
            (.last "right" (right.outlineBy value)))))

instance [Outlined α] : Outlined (Tree α) where
  outline := outlineBy Text.outline

end Longest.Tree
