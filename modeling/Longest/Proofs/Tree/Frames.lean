import Longest.Proofs.Tree.Diameter
import Longest.Tree.Frames

/-!
# The walk with frames is the visit by recursion

A walk that enters a tree comes out of it with the height of the tree on its
stack and with the running maximum of the recursive visit, whatever frames and
heights waited below.  Between two turns these are determined by the way from
the root to the subtree under visit: every node on it left its exit, and behind
it either the right side, still to be entered, or the height of the left side.
So an exit always finds the heights of both sides of its node.
-/

namespace Longest

namespace Walk

variable {α : Type}

/-! ## Several turns -/

/-- The first walk becomes the second one by a number of turns. -/
inductive Turns : Nat → Walk α → Walk α → Prop where
  | none (walk : Walk α) : Turns 0 walk walk
  | first {count : Nat} {walk next last : Walk α}
      (moved : walk.turn = .moved next) (others : Turns count next last) :
      Turns (count + 1) walk last

theorem Turns.trans
    {count count' : Nat} {walk middle last : Walk α}
    (turns : Turns count walk middle) (turns' : Turns count' middle last) :
    Turns (count + count') walk last := by
  induction turns with
  | none walk =>
      rw [Nat.zero_add]
      exact turns'
  | first moved _ induction =>
      rw [Nat.add_right_comm]
      exact .first moved (induction turns')

/--
A walk has no choice, so the turns that it made are the first ones
of any longer way.
-/
theorem Turns.rest
    {count total : Nat} {walk middle last : Walk α}
    (made : Turns count walk middle) (turns : Turns total walk last)
    (bounded : count ≤ total) :
    Turns (total - count) middle last := by
  induction made generalizing total with
  | none walk => exact turns
  | first moved _ induction =>
      cases turns with
      | none _ => exact absurd bounded (Nat.not_succ_le_zero _)
      | first moved' others' =>
          rw [moved] at moved'
          cases moved'
          rw [Nat.add_sub_add_right]
          exact induction others' (Nat.le_of_succ_le_succ bounded)

theorem Turns.unique
    {count : Nat} {walk last last' : Walk α}
    (turns : Turns count walk last) (turns' : Turns count walk last') :
    last = last' := by
  have nothing := turns.rest turns' (Nat.le_refl count)
  rw [Nat.sub_self] at nothing
  cases nothing
  rfl

/-- Before the last of its turns a walk can make one more. -/
theorem Turns.exists_turn
    {count total : Nat} {walk last : Walk α}
    (turns : Turns total walk last) (before : count < total) :
    ∃ middle next, Turns count walk middle ∧ middle.turn = .moved next := by
  induction turns generalizing count with
  | none walk => exact absurd before (Nat.not_lt_zero count)
  | @first total walk next last moved others induction =>
      cases count with
      | zero => exact ⟨walk, next, .none walk, moved⟩
      | succ count =>
          rcases induction (Nat.lt_of_succ_lt_succ before) with
            ⟨middle, next', made, moved'⟩
          exact ⟨middle, next', .first moved made, moved'⟩

/-- What no turn destroys holds after any number of turns. -/
theorem Turns.keeps
    {property : Walk α → Prop}
    (kept :
      ∀ {walk next}, property walk → walk.turn = .moved next → property next)
    {count : Nat} {walk last : Walk α} (turns : Turns count walk last)
    (holds : property walk) :
    property last := by
  induction turns with
  | none walk => exact holds
  | first moved _ induction => exact induction (kept holds moved)

theorem Turns.weight_eq
    {count : Nat} {walk last : Walk α} (turns : Turns count walk last) :
    walk.weight = last.weight + count := by
  induction turns with
  | none walk => rfl
  | first moved _ induction =>
      rw [weight_of_turn moved, induction, Nat.add_assoc]

theorem run_eq_match (walk : Walk α) :
    walk.run =
      match walk.turn with
      | .finished diameter => some diameter
      | .moved next => next.run
      | .stuck => none := by
  rw [run]
  split
  · next finished => rw [finished]
  · next moved => rw [moved]
  · next stuck => rw [stuck]

theorem Turns.run_eq
    {count : Nat} {walk last : Walk α} (turns : Turns count walk last) :
    walk.run = last.run := by
  induction turns with
  | none walk => rfl
  | first moved _ induction => rw [run_eq_match, moved, ← induction]

/-! ## Through a whole tree -/

/--
A tree is walked through as it is visited, on top of whatever waits
on the two stacks.
-/
theorem turns_enter
    (tree : Tree α) (frames : List (Frame α)) (heights : List Int)
    (diameter : Int) :
    Turns (3 * tree.size + 1) ⟨.enter tree :: frames, heights, diameter⟩
      ⟨frames, (tree.visit diameter).1 :: heights,
        (tree.visit diameter).2⟩ := by
  induction tree generalizing frames heights diameter with
  | empty => exact .first rfl (.none _)
  | node value left right leftIH rightIH =>
      have throughLeft :=
        leftIH (.enter right :: .exit :: frames) heights diameter
      have throughRight := rightIH (.exit :: frames)
        ((left.visit diameter).1 :: heights) (left.visit diameter).2
      have atExit :
          Turns 1
            ⟨.exit :: frames,
              (right.visit (left.visit diameter).2).1 ::
                (left.visit diameter).1 :: heights,
              (right.visit (left.visit diameter).2).2⟩
            ⟨frames, ((Tree.node value left right).visit diameter).1 :: heights,
              ((Tree.node value left right).visit diameter).2⟩ :=
        .first rfl (.none _)
      have count :
          3 * (Tree.node value left right).size + 1 =
            3 * left.size + 1 + (3 * right.size + 1 + 1) + 1 := by
        simp only [Tree.size]
        omega
      rw [count]
      exact .first rfl (throughLeft.trans (throughRight.trans atExit))

/-! ## Between two turns -/

/--
What waits on the two stacks while a subtree of the whole tree is under visit:
for every node on the way down to it an exit, and behind the exit what became
of the other side.
-/
inductive Waits (whole : Tree α) :
    Tree α → List (Frame α) → List Int → Prop where
  | nothing : Waits whole whole [] []
  | whileLeft
      {value : α} {left right : Tree α}
      {frames : List (Frame α)} {heights : List Int}
      (above : Waits whole (.node value left right) frames heights) :
      Waits whole left (.enter right :: .exit :: frames) heights
  | whileRight
      {value : α} {left right : Tree α}
      {frames : List (Frame α)} {heights : List Int}
      (above : Waits whole (.node value left right) frames heights) :
      Waits whole right (.exit :: frames) (left.depth :: heights)

/--
A walk between two turns is about to enter a subtree, or has just
come out of one.
-/
inductive Visits (whole : Tree α) : Walk α → Prop where
  | entering
      {subtree : Tree α} {frames : List (Frame α)} {heights : List Int}
      {diameter : Int}
      (waits : Waits whole subtree frames heights) :
      Visits whole ⟨.enter subtree :: frames, heights, diameter⟩
  | leaving
      {subtree : Tree α} {frames : List (Frame α)} {heights : List Int}
      {diameter : Int}
      (waits : Waits whole subtree frames heights) :
      Visits whole ⟨frames, subtree.depth :: heights, diameter⟩

variable {whole : Tree α}

theorem Waits.exists_address
    {subtree : Tree α} {frames : List (Frame α)} {heights : List Int}
    (waits : Waits whole subtree frames heights) :
    ∃ address, whole.subtree? address = some subtree := by
  induction waits with
  | nothing => exact ⟨[], rfl⟩
  | whileLeft _ induction =>
      rcases induction with ⟨address, found⟩
      exact ⟨address ++ [.left], by rw [Tree.subtree?_append, found]; rfl⟩
  | whileRight _ induction =>
      rcases induction with ⟨address, found⟩
      exact ⟨address ++ [.right], by rw [Tree.subtree?_append, found]; rfl⟩

/--
An exit belongs to a node whose two sides are finished, and finds their heights.
-/
theorem Visits.heights_of_exit
    {frames : List (Frame α)} {heights : List Int} {diameter : Int}
    (visits : Visits whole ⟨.exit :: frames, heights, diameter⟩) :
    ∃ value left right below,
      Waits whole (.node value left right) frames below ∧
      heights = right.depth :: left.depth :: below := by
  cases visits with
  | leaving waits =>
      cases waits with
      | whileRight above => exact ⟨_, _, _, _, above, rfl⟩

theorem Waits.turn_entering
    {subtree : Tree α} {frames : List (Frame α)} {heights : List Int}
    (waits : Waits whole subtree frames heights) (diameter : Int) :
    ∃ next, turn ⟨.enter subtree :: frames, heights, diameter⟩ = .moved next ∧
      Visits whole next := by
  cases subtree with
  | empty => exact ⟨_, rfl, .leaving waits⟩
  | node value left right => exact ⟨_, rfl, .entering (.whileLeft waits)⟩

/--
The step: a walk is at its end, or goes on to the next subtree or out of one.
-/
theorem Visits.turn {walk : Walk α} (visits : Visits whole walk) :
    walk.turn = .finished walk.diameter ∨
      ∃ next, walk.turn = .moved next ∧ Visits whole next := by
  cases visits with
  | entering waits => exact Or.inr (waits.turn_entering _)
  | leaving waits =>
      cases waits with
      | nothing => exact Or.inl rfl
      | whileLeft above =>
          exact Or.inr ((Waits.whileRight above).turn_entering _)
      | @whileRight value left right frames heights above =>
          refine Or.inr ⟨_, rfl, ?_⟩
          rw [← Tree.depth_node value]
          exact .leaving above

theorem Visits.turn_ne_stuck {walk : Walk α} (visits : Visits whole walk) :
    walk.turn ≠ .stuck := by
  intro stuck
  rcases visits.turn with finished | ⟨next, moved, _⟩
  · rw [stuck] at finished
    cases finished
  · rw [stuck] at moved
    cases moved

theorem Visits.next
    {walk next : Walk α} (visits : Visits whole walk)
    (moved : walk.turn = .moved next) :
    Visits whole next := by
  rcases visits.turn with finished | ⟨next', moved', nextVisits⟩
  · rw [moved] at finished
    cases finished
  · rw [moved] at moved'
    cases moved'
    exact nextVisits

/--
The run: whatever number of turns a walk has made, it is on its way
through the tree.
-/
theorem Turns.visits
    {count : Nat} {walk last : Walk α} (turns : Turns count walk last)
    (visits : Visits whole walk) : Visits whole last :=
  turns.keeps Visits.next visits

/-! ## The walk through a tree -/

theorem visits_start (tree : Tree α) : Visits tree (start tree) :=
  .entering .nothing

theorem turns_start (tree : Tree α) :
    Turns (3 * tree.size + 1) (start tree)
      ⟨[], [tree.depth], tree.diameter⟩ := by
  have turns := turns_enter tree [] [] 0
  rw [Tree.visit_of_nonneg tree (Int.le_refl 0),
    max_eq_right (Int.natCast_nonneg _)] at turns
  exact turns

theorem Turns.count_le
    {whole : Tree α} {count : Nat} {walk : Walk α}
    (turns : Turns count (start whole) walk) :
    count ≤ 3 * whole.size + 1 := by
  have weight := turns.weight_eq
  rw [(turns_start whole).weight_eq] at weight
  change 0 + (3 * whole.size + 1) = walk.weight + count at weight
  omega

theorem run_start (tree : Tree α) :
    (start tree).run = some (tree.diameter : Int) := by
  rw [(turns_start tree).run_eq, run_eq_match]
  rfl

/-- Both ways to find the diameter give the same number. -/
theorem frameDiameter_eq (tree : Tree α) :
    tree.frameDiameter = tree.diameter := by
  rw [Tree.frameDiameter, run_start]
  rfl

/--
The walk through a tree ends after three turns for each node and one more.  It
never gets stuck: at every exit the two uppermost heights are those of the sides
of one node.  Its result is the diameter found by recursion.
-/
theorem frameDiameter_eq_diameter (tree : Tree α) :
    (∀ count walk, Turns count (start tree) walk →
      count ≤ 3 * tree.size + 1 ∧ walk.turn ≠ .stuck ∧
        ∀ frames, walk.frames = .exit :: frames →
          ∃ address value left right below,
            tree.subtree? address = some (.node value left right) ∧
              walk.heights = right.depth :: left.depth :: below) ∧
      (∃ last, Turns (3 * tree.size + 1) (start tree) last ∧
        last.turn = .finished tree.diameter) ∧
      (start tree).run = some (tree.diameter : Int) ∧
      tree.frameDiameter = tree.diameter := by
  refine ⟨?_, ⟨_, turns_start tree, rfl⟩, run_start tree,
    frameDiameter_eq tree⟩
  intro count walk made
  have visits := made.visits (visits_start tree)
  refine ⟨made.count_le, visits.turn_ne_stuck, ?_⟩
  rintro frames atExit
  rcases walk with ⟨_, heights, diameter⟩
  subst atExit
  rcases visits.heights_of_exit with
    ⟨value, left, right, below, waits, sameHeights⟩
  rcases waits.exists_address with ⟨address, found⟩
  exact ⟨address, value, left, right, below, found, sameHeights⟩

/--
The second exit in the forked tree finds a leaf on the left side and
nothing on the right.
-/
theorem frameDiameter_forked :
    (∃ frames, Turns 9 (start Tree.forked) ⟨.exit :: frames, [-1, 0], 0⟩ ∧
        9 ≤ 3 * Tree.forked.size + 1 ∧
        turn ⟨.exit :: frames, [-1, 0], 0⟩ ≠ .stuck ∧
        ∃ address value left right below,
          Tree.forked.subtree? address = some (.node value left right) ∧
          [-1, 0] = right.depth :: left.depth :: below) ∧
      Tree.forked.frameDiameter = 6 := by
  have made :
      Turns 9 (start Tree.forked)
        ⟨.exit ::
            [.enter .empty, .exit,
              .enter (.node 4 .empty (.node 6 .empty (.leaf 8))), .exit,
              .enter .empty, .exit],
          [-1, 0], 0⟩ :=
    .first rfl <| .first rfl <| .first rfl <| .first rfl <| .first rfl <|
      .first rfl <| .first rfl <| .first rfl <| .first rfl <| .none _
  rcases (frameDiameter_eq_diameter Tree.forked).1 9 _ made with
    ⟨inTime, notStuck, atExit⟩
  exact ⟨⟨_, made, inTime, notStuck, atExit _ rfl⟩,
    (frameDiameter_eq_diameter Tree.forked).2.2.2⟩

end Walk

end Longest
