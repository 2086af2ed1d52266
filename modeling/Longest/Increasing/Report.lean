import Longest.Increasing.Memo
import Longest.Increasing.Piles
import Longest.Increasing.Table
import Longest.Increasing.Tails
import Longest.Journal

/-!
# Measured questions about increasing subsequences

The four questions that can be asked about a list, each with the events that its
answer leaves in the journal.  The table and the memoised search announce
themselves before they start; finding an actual subsequence leaves no event.
-/

namespace Longest.Increasing.Report

variable {α : Type} [Ord α]

/-- The length from the table. -/
def tableLength (numbers : List α) : Logged Nat := do
  Logged.note (.tableStarted numbers.length)
  let length := lengthByTable numbers
  Logged.note (.tableLength length)
  return length

/-- The length by memoised search. -/
def memoLength (numbers : List α) : Logged Nat := do
  Logged.note (.memoStarted numbers.length)
  let length := lengthByMemo numbers
  Logged.note (.memoLength length)
  return length

/-- The length by patience sorting. -/
def patienceLength (numbers : List α) : Logged Nat := do
  let length := lengthByPatience numbers
  Logged.note (.patienceLength length)
  return length

/-- What can be asked about a list. -/
inductive Question where
  | tableLength
  | memoLength
  | patienceLength
  | subsequence
  deriving DecidableEq, Repr

/-- The answers to the questions that were asked. -/
structure Findings (α : Type) where
  tableLength : Option Nat
  memoLength : Option Nat
  patienceLength : Option Nat
  subsequence : Option (List α)

/--
Answers one of the questions asked, and leaves it alone if it is not among them.
-/
def answerIf {β : Type} (asked : List Question) (question : Question)
    (answer : Unit → Logged β) : Logged (Option β) :=
  if question ∈ asked then do
    return some (← answer ())
  else
    return none

/-- Answers the questions asked, in the order of their declaration. -/
def examine (asked : List Question) (numbers : List α) :
    Logged (Findings α) := do
  let tableLength ← answerIf asked .tableLength fun _ => tableLength numbers
  let memoLength ← answerIf asked .memoLength fun _ => memoLength numbers
  let patienceLength ←
    answerIf asked .patienceLength fun _ => patienceLength numbers
  let subsequence ← answerIf asked .subsequence fun _ => pure (longest numbers)
  return { tableLength, memoLength, patienceLength, subsequence }

end Longest.Increasing.Report
