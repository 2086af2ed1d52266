import Longest.Text.Outline

/-!
# Elements with an order of their own

`Reversed` turns an order round, `Pair` compares its first part before its
second, and `Keyed` looks at its key alone: two keyed elements with one key
compare equal, whatever their tags.
-/

namespace Longest

/-- An element whose order is that of its content turned round. -/
structure Reversed (α : Type) where
  content : α
  deriving DecidableEq, Repr

instance {α : Type} [Ord α] : Ord (Reversed α) where
  compare first second := compare second.content first.content

/-- Two elements of which the first decides the order unless it is equal. -/
structure Pair (α β : Type) where
  first : α
  second : β
  deriving DecidableEq, Repr

instance {α β : Type} [Ord α] [Ord β] : Ord (Pair α β) where
  compare left right :=
    (compare left.first right.first).then (compare left.second right.second)

/-- A key with a tag that no comparison sees. -/
structure Keyed where
  key : Int64
  tag : String
  deriving Repr

namespace Keyed

instance : Ord Keyed where
  compare first second := compare first.key second.key

instance : BEq Keyed where
  beq first second := first.key == second.key

instance : Text.Outlined Keyed where
  outline element :=
    .record "Keyed"
      (.more "key" (Text.outline element.key)
        (.last "tag" (Text.outline element.tag)))

end Keyed

end Longest
