import Longest.Tree.Address
import Longest.Tree.Outline
import Longest.Tree.Report
import Longest.Tree.Traversal

/-!
# A grove of named trees

A grove holds trees in slots that are known by name; a slot that was never
filled holds the empty tree.  Each tree stands in one slot only: what is moved
leaves the empty tree behind, and what is to stay must be copied.

A place is a slot with an address in its tree.  An instruction that goes to a
place at which there can be no subtree, because a node on the way is absent, is
refused; some instructions need a node at the place as well.  A refused
instruction leaves the grove as it was.
-/

namespace Longest

/-- Trees in named slots. -/
structure Grove (α : Type) where
  /-- Each slot that was ever filled, with its tree. -/
  slots : List (String × Tree α)

/-- A place in one of the trees of a grove. -/
structure Place where
  slot : String
  address : Address
  deriving DecidableEq, Repr

/-- Why an instruction is refused. -/
inductive Refusal where
  /-- There is no node where one is needed. -/
  | noNode
  /-- The tree to be planted could not be built. -/
  | unbuilt (error : Error)
  deriving DecidableEq, Repr

/-- The refusal in a sentence. -/
def Refusal.message : Refusal → String
  | .noNode => "no node at path"
  | .unbuilt error => error.message

/-- What can be done in a grove. -/
inductive Instruction (α : Type) where
  /-- Fills a slot with a tree that has just been built. -/
  | build (slot : String) (built : Except Error (Tree α))
  /-- Fills a slot with a node over the trees moved out of up to two slots. -/
  | join (slot : String) (value : α) (left right : Option String)
  /-- Copies a subtree into a slot. -/
  | copy (place : Place) (target : String)
  /-- Moves a subtree into a slot. -/
  | take (place : Place) (target : String)
  /-- Moves the tree of a slot to a place, instead of what was there. -/
  | put (place : Place) (source : String)
  /-- Compares two subtrees. -/
  | compare (first second : Place)
  /-- Mirrors the subtree of a node. -/
  | mirror (place : Place)
  /-- Gives a node another value. -/
  | relabel (place : Place) (value : α)
  | dump (place : Place)
  | diameter (place : Place)
  | frameDiameter (place : Place)
  /-- The outline of a subtree on one line. -/
  | outline (place : Place)
  /-- The outline of a subtree with one field a line. -/
  | spread (place : Place)
  | height (place : Place)
  | size (place : Place)
  | isLeaf (place : Place)
  /-- Surveys the subtree of every node below a node, itself first. -/
  | surveys (place : Place)

/-- What an instruction that is not refused answers. -/
inductive Answer (α : Type) where
  /-- A slot was filled; the answer is whether its tree is empty. -/
  | built (isEmpty : Bool)
  | tree (tree : Tree α)
  | trees (first second : Tree α)
  | truth (value : Bool)
  | number (value : Nat)
  | text (text : String)
  | surveys (surveys : List (Tree.Report.Survey α))

namespace Grove

variable {α : Type}

/-- The grove in which every slot is empty. -/
def bare : Grove α :=
  ⟨[]⟩

/-- The tree in a slot. -/
def tree (grove : Grove α) (slot : String) : Tree α :=
  (grove.slots.lookup slot).getD .empty

/-- Fills a slot, instead of what was there. -/
def fill (grove : Grove α) (slot : String) (tree : Tree α) : Grove α :=
  ⟨(slot, tree) :: grove.slots.filter fun entry => entry.1 != slot⟩

/-- Moves the tree out of a slot. -/
def moveOut (grove : Grove α) (slot : String) : Tree α × Grove α :=
  (grove.tree slot, grove.fill slot .empty)

/-- Moves the tree out of a slot, if a slot is named. -/
def moveOutNamed (grove : Grove α) : Option String → Tree α × Grove α
  | none => (.empty, grove)
  | some slot => grove.moveOut slot

@[simp]
theorem tree_fill (grove : Grove α) (slot : String) (tree : Tree α) :
    (grove.fill slot tree).tree slot = tree := by
  simp [Grove.tree, fill]

/-- A refusal, or else a result, with the events noted on the way to it. -/
abbrev Attempt :=
  ExceptT Refusal Logged

/-- The subtree at a place. -/
def subtree (grove : Grove α) (place : Place) : Attempt (Tree α) :=
  match (grove.tree place.slot).subtree? place.address with
  | some tree => return tree
  | none => throw .noNode

/-- The subtree at a place where there has to be a node. -/
def nodeAt (grove : Grove α) (place : Place) : Attempt (Tree α) := do
  match ← grove.subtree place with
  | .empty => throw .noNode
  | tree => return tree

/-- The grove with the subtree at a place changed. -/
def update (grove : Grove α) (place : Place) (change : Tree α → Tree α) :
    Attempt (Grove α) :=
  match (grove.tree place.slot).update? change place.address with
  | some tree => return grove.fill place.slot tree
  | none => throw .noNode

/-- The grove with its answer, if only a slot is of interest. -/
def showing (slot : String) (grove : Grove α) : Grove α × Answer α :=
  (grove, .tree (grove.tree slot))

/-- Follows one instruction. -/
def follow [BEq α] [Text.Outlined α] (grove : Grove α) :
    Instruction α → Attempt (Grove α × Answer α)
  | .build _ (.error error) => throw (.unbuilt error)
  | .build slot (.ok tree) => return (grove.fill slot tree, .built tree.isEmpty)
  | .join slot value left right => do
    let (left, grove) := grove.moveOutNamed left
    let (right, grove) := grove.moveOutNamed right
    return showing slot (grove.fill slot (.node value left right))
  | .copy place target => do
    return showing target (grove.fill target (← grove.subtree place))
  | .take place target => do
    let taken ← grove.subtree place
    let grove ← grove.update place fun _ => .empty
    let grove := grove.fill target taken
    return (grove, .trees (grove.tree place.slot) (grove.tree target))
  | .put place source => do
    discard (grove.subtree place)
    let (moved, grove) := grove.moveOut source
    return showing place.slot (← grove.update place fun _ => moved)
  | .compare first second => do
    let first ← grove.subtree first
    let second ← grove.subtree second
    return (grove, .truth (first == second))
  | .mirror place => do
    discard (grove.nodeAt place)
    return showing place.slot (← grove.update place Tree.mirror)
  | .relabel place value => do
    discard (grove.nodeAt place)
    return showing place.slot (← grove.update place (Tree.relabel value))
  | .dump place => return (grove, .tree (← grove.subtree place))
  | .diameter place => do
    return (grove, .number (← Tree.Report.diameter (← grove.subtree place)))
  | .frameDiameter place => do
    return (grove,
      .number (← Tree.Report.frameDiameter (← grove.subtree place)))
  | .outline place =>
    return (grove, .text (Text.outline (← grove.subtree place)).compact)
  | .spread place =>
    return (grove, .text (Text.outline (← grove.subtree place)).spread)
  | .height place => return (grove, .number (← grove.nodeAt place).height)
  | .size place => return (grove, .number (← grove.nodeAt place).size)
  | .isLeaf place => return (grove, .truth (← grove.nodeAt place).isLeaf)
  | .surveys place => do
    let surveys ← (← grove.nodeAt place).subtrees.mapM fun tree =>
      (Tree.Report.survey tree : Attempt _)
    return (grove, .surveys surveys)

/-- Follows one instruction; a refused one leaves the grove as it was. -/
def perform
    [BEq α] [Text.Outlined α] (grove : Grove α) (instruction : Instruction α) :
    Logged (Grove α × Except Refusal (Answer α)) := do
  match ← (grove.follow instruction).run with
  | .ok (grove, answer) => return (grove, .ok answer)
  | .error refusal => return (grove, .error refusal)

end Grove

end Longest
