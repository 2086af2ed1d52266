import Longest.Proofs.Tree.Bounds
import Mathlib.Algebra.Group.Nat.Defs

/-!
# All numbers fit into a word

Both ways to find a diameter compute with signed numbers, of which -1 is the
least.  Every number that comes up on the way is bounded by the number of nodes:
a height by the nodes on the way down, and a path by the nodes on it.  If the
nodes can be counted in a signed word, no number leaves the range of such words,
and the diameter is read off its bits without loss.
-/

namespace Longest

namespace Tree

variable {α : Type}

/--
What comes up at a node with sides of these heights, from the diameter seen
before it.  The length of the path over the node is found in two steps, and so
is the height of the node.
-/
def numbersAt (left right diameter : Int) : List Int :=
  [left, right, 2 + left, apex left right, max diameter (apex left right),
    max left right, rise left right]

/--
The numbers that come up in a visit, in their order, with the diameter from
which it starts.
-/
def visitNumbers : Tree α → Int → List Int
  | empty, diameter => [diameter, -1]
  | node _ left right, diameter =>
    let leftVisit := left.visit diameter
    let rightVisit := right.visit leftVisit.2
    diameter :: left.visitNumbers diameter ++ right.visitNumbers leftVisit.2 ++
      numbersAt leftVisit.1 rightVisit.1 rightVisit.2

/-- What a visit returns has come up in it. -/
theorem visit_mem_visitNumbers (tree : Tree α) (diameter : Int) :
    (tree.visit diameter).1 ∈ tree.visitNumbers diameter ∧
      (tree.visit diameter).2 ∈ tree.visitNumbers diameter := by
  cases tree with
  | empty => simp [visit, visitNumbers]
  | node value left right => simp [visitNumbers, numbersAt]

/-! ## Bounds by the number of nodes -/

theorem size_le_of_subtree?
    {tree subtree : Tree α} {address : Address}
    (found : tree.subtree? address = some subtree) :
    subtree.size ≤ tree.size := by
  refine measure_le_of_subtree? ?_ found
  intro value left right side
  cases side <;> simp only [child, size] <;> omega

theorem diameter_le_size (tree : Tree α) : tree.diameter ≤ tree.size :=
  Nat.le_trans (diameter_le_size_sub_one tree) (Nat.sub_le _ _)

/--
At a node of a tree with no more nodes than `bound` nothing leaves the bounds.
-/
theorem bounds_of_mem_numbersAt
    {left right : Tree α} {diameter number bound : Int}
    (small : 1 + left.size + right.size ≤ bound) (nonneg : 0 ≤ diameter)
    (bounded : diameter ≤ bound)
    (member : number ∈ numbersAt left.depth right.depth diameter) :
    -1 ≤ number ∧ number ≤ bound := by
  have leftLower := neg_one_le_depth left
  have rightLower := neg_one_le_depth right
  have leftUpper := depth_add_one_le_size left
  have rightUpper := depth_add_one_le_size right
  simp only [numbersAt, apex, rise, List.mem_cons, List.not_mem_nil,
    or_false] at member
  omega

/-- The visit keeps the bounds, from whatever diameter within them it starts. -/
theorem bounds_of_mem_visitNumbers
    {tree : Tree α} {diameter number bound : Int} (small : tree.size ≤ bound)
    (nonneg : 0 ≤ diameter) (bounded : diameter ≤ bound)
    (member : number ∈ tree.visitNumbers diameter) :
    -1 ≤ number ∧ number ≤ bound := by
  induction tree generalizing diameter with
  | empty =>
      simp only [visitNumbers, List.mem_cons, List.not_mem_nil,
        or_false] at member
      omega
  | node value left right leftIH rightIH =>
      have nodes : 1 + left.size + right.size ≤ bound := by exact_mod_cast small
      have leftShorter := diameter_le_size left
      have rightShorter := diameter_le_size right
      have leftNonneg : 0 ≤ max diameter left.diameter :=
        le_max_of_le_left nonneg
      have leftBounded : max diameter left.diameter ≤ bound :=
        max_le bounded (by omega)
      have rightNonneg : 0 ≤ max (max diameter left.diameter) right.diameter :=
        le_max_of_le_left leftNonneg
      have rightBounded :
          max (max diameter left.diameter) right.diameter ≤ bound :=
        max_le leftBounded (by omega)
      simp only [visitNumbers, visit_of_nonneg left nonneg,
        visit_of_nonneg right leftNonneg, List.mem_append,
        List.mem_cons] at member
      rcases member with ((rfl | onLeft) | onRight) | atRoot
      · exact ⟨Int.le_trans (by decide) nonneg, bounded⟩
      · exact leftIH (by omega) nonneg bounded onLeft
      · exact rightIH (by omega) leftNonneg leftBounded onRight
      · exact bounds_of_mem_numbersAt nodes rightNonneg rightBounded atRoot

end Tree

namespace Walk

variable {α : Type}

/-- What comes up in the next turn. -/
def turnNumbers : Walk α → List Int
  | ⟨.enter .empty :: _, _, _⟩ => [-1]
  | ⟨.exit :: _, right :: left :: _, diameter⟩ =>
    Tree.numbersAt left right diameter
  | _ => []

/-- The numbers that a walk holds, and those that come up in its next turn. -/
def numbers (walk : Walk α) : List Int :=
  walk.diameter :: walk.heights ++ walk.turnNumbers

/-! ## The diameter on the way -/

theorem diameter_le_of_turn
    {walk next : Walk α} (moved : walk.turn = .moved next) :
    walk.diameter ≤ next.diameter := by
  unfold turn at moved
  split at moved <;> cases moved
  · exact Int.le_refl _
  · exact Int.le_refl _
  · exact le_max_left _ _

theorem Turns.diameter_le
    {count : Nat} {walk last : Walk α} (turns : Turns count walk last) :
    walk.diameter ≤ last.diameter :=
  turns.keeps
    (fun shorter moved => Int.le_trans shorter (diameter_le_of_turn moved))
    (Int.le_refl _)

variable {whole : Tree α} {count : Nat} {walk : Walk α}

/-- On its way the walk has seen no longer path than in the end. -/
theorem Turns.diameter_bounds (turns : Turns count (start whole) walk) :
    0 ≤ walk.diameter ∧ walk.diameter ≤ whole.diameter :=
  ⟨turns.diameter_le,
    (turns.rest (turns_start whole) turns.count_le).diameter_le⟩

/-! ## The heights on the stack -/

theorem Waits.exists_depth
    {subtree : Tree α} {frames : List (Frame α)} {heights : List Int}
    {height : Int}
    (waits : Waits whole subtree frames heights) (member : height ∈ heights) :
    ∃ address finished, whole.subtree? address = some finished ∧
      height = finished.depth := by
  induction waits with
  | nothing => cases member
  | whileLeft _ induction => exact induction member
  | @whileRight value left right frames heights above induction =>
      rcases List.mem_cons.mp member with rfl | member
      · rcases (Waits.whileLeft above).exists_address with ⟨address, found⟩
        exact ⟨address, left, found, rfl⟩
      · exact induction member

/-- What lies on the stack of heights are the heights of subtrees. -/
theorem Visits.exists_depth
    {height : Int} (visits : Visits whole walk)
    (member : height ∈ walk.heights) :
    ∃ address finished, whole.subtree? address = some finished ∧
      height = finished.depth := by
  cases visits with
  | entering waits => exact waits.exists_depth member
  | leaving waits =>
      rcases List.mem_cons.mp member with rfl | member
      · rcases waits.exists_address with ⟨address, found⟩
        exact ⟨address, _, found, rfl⟩
      · exact waits.exists_depth member

/-- After any number of turns nothing leaves the bounds. -/
theorem Turns.bounds_of_mem_numbers
    {number : Int} (turns : Turns count (start whole) walk)
    (member : number ∈ walk.numbers) :
    -1 ≤ number ∧ number ≤ whole.size := by
  have visits := turns.visits (visits_start whole)
  rcases turns.diameter_bounds with ⟨nonneg, seen⟩
  have bounded : walk.diameter ≤ whole.size :=
    Int.le_trans seen (Int.ofNat_le.mpr whole.diameter_le_size)
  simp only [numbers, List.mem_append, List.mem_cons] at member
  rcases member with (rfl | onStack) | inTurn
  · exact ⟨Int.le_trans (by decide) nonneg, bounded⟩
  · rcases visits.exists_depth onStack with ⟨address, finished, found, rfl⟩
    have smaller := Tree.size_le_of_subtree? found
    have upper := finished.depth_add_one_le_size
    exact ⟨finished.neg_one_le_depth, by omega⟩
  · unfold turnNumbers at inTurn
    split at inTurn
    · rcases List.mem_singleton.mp inTurn with rfl
      exact ⟨Int.le_refl _, by omega⟩
    · rcases visits.heights_of_exit with
        ⟨value, left, right, below, waits, sameHeights⟩
      rcases waits.exists_address with ⟨address, found⟩
      have smaller := Tree.size_le_of_subtree? found
      cases sameHeights
      refine Tree.bounds_of_mem_numbersAt ?_ nonneg bounded inTurn
      simp only [Tree.size] at smaller
      omega
    · cases inTurn

end Walk

/-! ## Words -/

section Width

variable {α : Type} {width size : Nat} {number : Int}

/--
A number within the bounds is what a signed word with its bits stands for.
-/
theorem toInt_ofInt_of_bounds
    (positive : 1 ≤ width) (small : size < 2 ^ (width - 1))
    (lower : -1 ≤ number)
    (upper : number ≤ size) :
    (BitVec.ofInt width number).toInt = number := by
  have double := Nat.two_pow_pred_mul_two positive
  rw [BitVec.toInt_ofInt]
  apply Int.bmod_eq_of_le_mul_two <;> omega

/--
If it is not negative, the unsigned word with the same bits stands for it too.
-/
theorem toNat_ofInt_of_nonneg
    (positive : 1 ≤ width) (small : size < 2 ^ (width - 1))
    (nonneg : 0 ≤ number)
    (upper : number ≤ size) :
    ((BitVec.ofInt width number).toNat : Int) = number := by
  have double := Nat.two_pow_pred_mul_two positive
  rw [BitVec.toNat_ofInt, Int.emod_eq_of_lt nonneg (by omega)]
  exact Int.toNat_of_nonneg nonneg

/--
If the nodes of a tree can be counted in a signed word, all numbers that come up
in the visit of the tree and after any number of turns of the walk lie between
-1 and the number of nodes, and are what signed words with their bits stand for.
Both ways end with a diameter that is not negative, and as an unsigned word its
bits stand for the same number.
-/
theorem numbers_fit_words
    {tree : Tree α} (positive : 1 ≤ width)
    (small : tree.size < 2 ^ (width - 1)) :
    (∀ number ∈ tree.visitNumbers 0, (-1 ≤ number ∧ number ≤ tree.size) ∧
        (BitVec.ofInt width number).toInt = number) ∧
      (∀ count walk, Walk.Turns count (Walk.start tree) walk →
        ∀ number ∈ walk.numbers, (-1 ≤ number ∧ number ≤ tree.size) ∧
          (BitVec.ofInt width number).toInt = number) ∧
      (0 ≤ (tree.visit 0).2 ∧
        ((BitVec.ofInt width (tree.visit 0).2).toNat : Int) = (tree.visit 0).2 ∧
        (BitVec.ofInt width (tree.visit 0).2).toNat = tree.diameter) ∧
      ∃ last, (Walk.start tree).run = some last ∧ 0 ≤ last ∧
        ((BitVec.ofInt width last).toNat : Int) = last ∧
        (BitVec.ofInt width last).toNat = tree.frameDiameter := by
  have inVisit :
      ∀ number ∈ tree.visitNumbers 0, -1 ≤ number ∧ number ≤ tree.size :=
    fun number =>
      Tree.bounds_of_mem_visitNumbers (Int.le_refl _) (Int.le_refl 0)
        (Int.natCast_nonneg _)
  have bounded := (inVisit _ (tree.visit_mem_visitNumbers 0).2).2
  rw [Tree.visit_zero_snd] at bounded
  have kept :
      ((BitVec.ofInt width tree.diameter).toNat : Int) = tree.diameter :=
    toNat_ofInt_of_nonneg positive small (Int.natCast_nonneg _) bounded
  refine ⟨?_, ?_, ?_, tree.diameter, Walk.run_start tree, Int.natCast_nonneg _,
    kept, ?_⟩
  · intro number member
    have bounds := inVisit number member
    exact ⟨bounds, toInt_ofInt_of_bounds positive small bounds.1 bounds.2⟩
  · intro count walk turns number member
    have bounds := turns.bounds_of_mem_numbers member
    exact ⟨bounds, toInt_ofInt_of_bounds positive small bounds.1 bounds.2⟩
  · rw [Tree.visit_zero_snd]
    exact ⟨Int.natCast_nonneg _, kept, Int.ofNat_inj.mp kept⟩
  · rw [Walk.frameDiameter_eq]
    exact Int.ofNat_inj.mp kept

/--
Words of three bits suffice for three nodes in a row.  The bound is reached at
the exit from the root, before the height of the absent side is added.
-/
theorem numbers_fit_words_chain :
    let tree : Tree Nat := .chain .left [1, 2, 3]
    1 ≤ 3 ∧ tree.size < 2 ^ (3 - 1) ∧
      (3 ∈ tree.visitNumbers 0 ∧ (BitVec.ofInt 3 3).toInt = 3) ∧
      (Walk.Turns 9 (Walk.start tree) ⟨[.exit], [-1, 1], 1⟩ ∧
        3 ∈ (⟨[.exit], [-1, 1], 1⟩ : Walk Nat).numbers ∧
          (BitVec.ofInt 3 3).toInt = 3) ∧
      (BitVec.ofInt 3 (tree.visit 0).2).toNat = 2 ∧
      ∃ last, (Walk.start tree).run = some last ∧
        (BitVec.ofInt 3 last).toNat = 2 := by
  intro tree
  have small : tree.size < 2 ^ (3 - 1) := by decide
  have made : Walk.Turns 9 (Walk.start tree) ⟨[.exit], [-1, 1], 1⟩ :=
    .first rfl <| .first rfl <| .first rfl <| .first rfl <| .first rfl <|
      .first rfl <| .first rfl <| .first rfl <| .first rfl <| .none _
  rcases numbers_fit_words (by decide) small with
    ⟨inVisit, inWalk, ⟨_, _, cast⟩, last, result, _, _, cast'⟩
  have comesUp : 3 ∈ tree.visitNumbers 0 := by decide
  have comesUp' : 3 ∈ (⟨[.exit], [-1, 1], 1⟩ : Walk Nat).numbers := by decide
  exact ⟨by decide, small, ⟨comesUp, (inVisit 3 comesUp).2⟩,
    ⟨made, comesUp', (inWalk 9 _ made 3 comesUp').2⟩, cast, last, result,
    cast'.trans (Walk.frameDiameter_eq tree)⟩

end Width

end Longest
