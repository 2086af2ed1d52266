import Longest.Grove
import Longest.Element
import Longest.Increasing.Report
import Longest.Tree.Dismantle
import Longest.LevelOrder.Entries
import Longest.Proofs.Increasing.Order
import Longest.Proofs.Increasing.Subsequence
import Longest.Proofs.Increasing.Piles
import Longest.Proofs.Increasing.Reconstruction
import Longest.Proofs.Increasing.Rightmost
import Longest.Proofs.Increasing.Table
import Longest.Proofs.Increasing.Agreement
import Longest.Proofs.Tree.Address
import Longest.Proofs.Tree.Diameter
import Longest.Proofs.Tree.Frames
import Longest.Proofs.Tree.Mirror
import Longest.Proofs.Tree.Bounds
import Longest.Proofs.Text.Blank
import Longest.Proofs.Text.Numeral
import Longest.Proofs.LevelOrder.Places
import Longest.Proofs.LevelOrder.Reading
import Longest.Proofs.LevelOrder.Rebuild
import Longest.Proofs.LevelOrder.RoundTrip
import Longest.Proofs.LevelOrder.Detached
import Longest.Proofs.LevelOrder.Seating
import Longest.Proofs.LevelOrder.Dense
import Longest.Proofs.LevelOrder.Written
import Longest.Proofs.Increasing.Memo
import Longest.Proofs.Increasing.Tails
import Longest.Proofs.Increasing.Cover
import Longest.Proofs.Increasing.Choice
import Longest.Proofs.Increasing.Growth
import Longest.Proofs.Increasing.Pattern
import Longest.Proofs.Increasing.Removal
import Longest.Proofs.LevelOrder.Faults
import Longest.Proofs.Message
import Longest.Proofs.Tree.Reflection
import Longest.Proofs.LevelOrder.Chain
import Longest.Proofs.LevelOrder.Journal
import Longest.Proofs.Increasing.Lockstep
import Longest.Proofs.Increasing.Links
import Longest.Proofs.Increasing.Recursion
import Longest.Proofs.Increasing.Contract
import Longest.Proofs.Increasing.Nesting
import Longest.Proofs.LevelOrder.Parents
import Longest.Proofs.Tree.Pending
import Longest.Proofs.Tree.Height
import Longest.Proofs.Tree.Words
import Longest.Proofs.Tree.Marked
import Longest.Proofs.Tree.Dismantle
import Longest.Proofs.Tree.Release
