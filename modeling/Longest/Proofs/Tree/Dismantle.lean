import Longest.Proofs.Tree.Marked
import Longest.Tree.Dismantle

/-!
# A tree is taken apart node by node

Each step takes one subtree from the worklist and releases its root, while its
sides go to the worklist.  What was released so far and what still waits always
make up the same sequence of nodes, in which every node comes before its sides
and the right side before the left one.  So the worklist is empty after one step
for each node below the root.

Steps do not look at values: changing all values before a step or after it
comes to the same.
-/

namespace Longest

namespace Tree

variable {α β : Type}

/-! ## The order of release -/

/--
The values of the nodes, each before its right side and this before its left
side.
-/
def releaseOrder : Tree α → List α
  | empty => []
  | node value left right => value :: (right.releaseOrder ++ left.releaseOrder)

theorem length_releaseOrder (tree : Tree α) :
    tree.releaseOrder.length = tree.size := by
  induction tree with
  | empty => rfl
  | node value left right leftIH rightIH =>
      rw [releaseOrder, List.length_cons, List.length_append, leftIH, rightIH,
        size]
      omega

theorem mem_releaseOrder_iff {tree : Tree α} {entry : α} :
    entry ∈ tree.releaseOrder ↔
      ∃ address, tree.valueAt? address = some entry := by
  induction tree with
  | empty =>
      apply iff_of_false List.not_mem_nil
      rintro ⟨address, found⟩
      exact not_hasNode_empty address
        (hasNode_iff_exists_valueAt?.mpr ⟨entry, found⟩)
  | node value left right leftIH rightIH =>
      rw [releaseOrder, List.mem_cons, List.mem_append, leftIH, rightIH]
      constructor
      · rintro (rfl | ⟨address, found⟩ | ⟨address, found⟩)
        · exact ⟨[], rfl⟩
        · exact ⟨.right :: address, found⟩
        · exact ⟨.left :: address, found⟩
      · rintro ⟨address, found⟩
        match address, found with
        | [], found => exact Or.inl (Option.some.inj found).symm
        | .right :: address, found => exact Or.inr (Or.inl ⟨address, found⟩)
        | .left :: address, found => exact Or.inr (Or.inr ⟨address, found⟩)

/--
A value that came twice would stand at two addresses, which differ in
their first side.
-/
theorem IsDistinct.nodup_releaseOrder
    {tree : Tree α} (distinct : tree.IsDistinct) :
    tree.releaseOrder.Nodup := by
  induction tree with
  | empty => exact List.nodup_nil
  | node value left right leftIH rightIH =>
      have below :
          ∀ side entry,
            entry ∈ ((node value left right).child side).releaseOrder →
            ∃ address,
              (node value left right).valueAt? (side :: address) =
                some entry := by
        intro side entry member
        rcases mem_releaseOrder_iff.mp member with ⟨address, found⟩
        exact ⟨address,
          (valueAt?_cons value left right side address).trans found⟩
      rw [releaseOrder, List.nodup_cons, List.nodup_append]
      refine ⟨?_, rightIH (distinct.child .right),
        leftIH (distinct.child .left), ?_⟩
      · intro member
        rcases List.mem_append.mp member with onRight | onLeft
        · rcases below .right _ onRight with ⟨address, found⟩
          cases distinct [] _ value rfl found
        · rcases below .left _ onLeft with ⟨address, found⟩
          cases distinct [] _ value rfl found
      · rintro entry onRight _ onLeft rfl
        rcases below .right _ onRight with ⟨first, found⟩
        rcases below .left _ onLeft with ⟨second, found'⟩
        cases distinct _ _ entry found found'

/-! ## Putting subtrees on a worklist -/

/-- A nonempty subtree that hangs somewhere below the root of a tree. -/
def HangsIn (subtree tree : Tree α) : Prop :=
  subtree ≠ empty ∧
    ∃ address, address ≠ [] ∧ tree.subtree? address = some subtree

theorem mem_hold_iff {tree held : Tree α} {pending : List (Tree α)} :
    held ∈ tree.hold pending ↔ held = tree ∧ tree ≠ empty ∨ held ∈ pending := by
  cases tree with
  | empty => simp [hold]
  | node value left right => simp [hold]

theorem flatMap_releaseOrder_hold (tree : Tree α) (pending : List (Tree α)) :
    (tree.hold pending).flatMap releaseOrder =
      tree.releaseOrder ++ pending.flatMap releaseOrder := by
  cases tree <;> rfl

theorem map_hold (change : α → β) (tree : Tree α) (pending : List (Tree α)) :
    (tree.hold pending).map (map change) =
      (tree.map change).hold (pending.map (map change)) := by
  cases tree <;> rfl

/-- What is detached from a node of a tree still hangs in the tree as it was. -/
theorem hangsIn_of_mem_hold
    {tree : Tree α} {value : α} {left right : Tree α} {address : Address}
    (found : tree.subtree? address = some (node value left right))
    {pending : List (Tree α)}
    (hang : ∀ subtree ∈ pending, subtree.HangsIn tree) :
    ∀ subtree ∈ right.hold (left.hold pending), subtree.HangsIn tree := by
  intro subtree held
  rcases mem_hold_iff.mp held with ⟨rfl, nonempty⟩ | held
  · exact ⟨nonempty, _, List.concat_ne_nil _ _, subtree?_concat .right found⟩
  · rcases mem_hold_iff.mp held with ⟨rfl, nonempty⟩ | held
    · exact ⟨nonempty, _, List.concat_ne_nil _ _, subtree?_concat .left found⟩
    · exact hang subtree held

end Tree

namespace Dismantling

variable {α β : Type}

/-! ## Several steps -/

/-- The state after a number of steps; `none` if there are not so many. -/
def after? (state : Dismantling α) : Nat → Option (Dismantling α)
  | 0 => some state
  | count + 1 => (state.after? count).bind step?

theorem after?_succ_eq_some_iff {state last : Dismantling α} {count : Nat} :
    state.after? (count + 1) = some last ↔
      ∃ middle, state.after? count = some middle ∧ middle.step? = some last :=
  Option.bind_eq_some_iff

theorem start_node (value : α) (left right : Tree α) :
    start (.node value left right) = ⟨right.hold (left.hold []), []⟩ :=
  rfl

theorem step?_node
    (value : α) (left right : Tree α) (pending released : List (Tree α)) :
    step? ⟨.node value left right :: pending, released⟩ =
      some ⟨right.hold (left.hold pending), .leaf value :: released⟩ :=
  rfl

theorem step?_eq_none_iff {state : Dismantling α} :
    state.step? = none ↔ state.pending = [] := by
  rcases state with ⟨pending, released⟩
  cases pending with
  | nil => exact iff_of_true rfl rfl
  | cons tree pending => exact iff_of_false nofun nofun

theorem run_of_step?_eq_none
    {state : Dismantling α} (ended : state.step? = none) :
    state.run = state := by
  rw [run]
  split
  · next stepped => cases ended.symm.trans stepped
  · rfl

theorem run_of_step?
    {state next : Dismantling α} (stepped : state.step? = some next) :
    state.run = next.run := by
  rw [run]
  split
  · next stepped' => rw [Option.some.inj (stepped.symm.trans stepped')]
  · next ended => cases ended.symm.trans stepped

theorem run_of_after? {state last : Dismantling α} {count : Nat}
    (reached : state.after? count = some last) : state.run = last.run := by
  induction count generalizing last with
  | zero =>
      cases reached
      rfl
  | succ count induction =>
      rcases after?_succ_eq_some_iff.mp reached with
        ⟨middle, reachedMiddle, stepped⟩
      exact (induction reachedMiddle).trans (run_of_step? stepped)

/-! ## No step looks at a value -/

/-- Changes every value. -/
def map (change : α → β) (state : Dismantling α) : Dismantling β :=
  ⟨state.pending.map (Tree.map change), state.released.map (Tree.map change)⟩

theorem step?_map (change : α → β) (state : Dismantling α) :
    (state.map change).step? = state.step?.map (map change) := by
  rcases state with ⟨pending, released⟩
  cases pending with
  | nil => rfl
  | cons tree pending =>
      cases tree with
      | empty => rfl
      | node value left right =>
          rw [map, List.map_cons, Tree.map_node, step?_node, step?_node,
            ← Tree.map_hold, ← Tree.map_hold]
          rfl

theorem start_map (change : α → β) (tree : Tree α) :
    start (tree.map change) = (start tree).map change := by
  cases tree with
  | empty => rfl
  | node value left right =>
      rw [Tree.map_node, start_node, start_node, map, Tree.map_hold,
        Tree.map_hold]
      rfl

theorem after?_map (change : α → β) (state : Dismantling α) (count : Nat) :
    (state.map change).after? count =
      (state.after? count).map (map change) := by
  induction count with
  | zero => rfl
  | succ count induction =>
      rw [after?, after?, induction, Option.bind_map, Option.map_bind]
      exact Option.bind_congr fun middle _ => step?_map change middle

/-! ## No step loses a node -/

variable {whole : Tree α} {count : Nat} {state next : Dismantling α}

/--
What was released, from the first on, and what still waits, in the
order of release.
-/
def nodes (state : Dismantling α) : List α :=
  (state.released.reverse ++ state.pending).flatMap Tree.releaseOrder

theorem nodes_start (whole : Tree α) :
    (start whole).nodes = whole.releaseOrder.tail := by
  cases whole with
  | empty => rfl
  | node value left right =>
      change (right.hold (left.hold [])).flatMap _ =
        right.releaseOrder ++ left.releaseOrder
      rw [Tree.flatMap_releaseOrder_hold, Tree.flatMap_releaseOrder_hold,
        List.flatMap_nil, List.append_nil]

/--
The root that is released was the first to wait, and its sides wait
where it waited.
-/
theorem nodes_of_step? (stepped : state.step? = some next) :
    next.nodes = state.nodes := by
  rcases state with ⟨pending, released⟩
  cases pending with
  | nil => cases stepped
  | cons tree pending =>
      cases tree with
      | empty =>
          cases stepped
          simp [nodes, Tree.child, Tree.prune, Tree.hold, Tree.releaseOrder]
      | node value left right =>
          rw [step?_node] at stepped
          cases stepped
          simp [nodes, Tree.flatMap_releaseOrder_hold, Tree.releaseOrder,
            Tree.leaf]

/-! ## Between two steps -/

/--
A tree is being taken apart, and this is the state after a number of steps.
-/
structure IsUnderway (whole : Tree α) (count : Nat) (state : Dismantling α) :
    Prop where
  /-- What waits hangs in the tree. -/
  hang : ∀ subtree ∈ state.pending, subtree.HangsIn whole
  /-- What is released has nothing hanging from it. -/
  bare : ∀ remainder ∈ state.released, ∃ value, remainder = .leaf value
  /-- Each step released one node. -/
  length_released : state.released.length = count
  /--
  What was released and what still waits make up all nodes below the root.
  -/
  nodes_eq : state.nodes = whole.releaseOrder.tail

theorem isUnderway_start (whole : Tree α) :
    IsUnderway whole 0 (start whole) := by
  refine ⟨?_, nofun, rfl, nodes_start whole⟩
  cases whole with
  | empty => exact nofun
  | node value left right =>
      have root :
          (Tree.node value left right).subtree? [] =
            some (.node value left right) :=
        rfl
      exact Tree.hangsIn_of_mem_hold root nofun

namespace IsUnderway

/-- What is taken next is a node below the root. -/
theorem exists_node
    (underway : IsUnderway whole count state) {subtree : Tree α}
    {pending : List (Tree α)}
    (waiting : state.pending = subtree :: pending) :
    ∃ address value left right, address ≠ [] ∧
      subtree = .node value left right ∧
      whole.subtree? address = some (.node value left right) := by
  rcases underway.hang subtree (waiting ▸ List.mem_cons_self) with
    ⟨nonempty, address, notRoot, found⟩
  cases subtree with
  | empty => exact absurd rfl nonempty
  | node value left right =>
      exact ⟨address, value, left, right, notRoot, rfl, found⟩

/--
A step takes a node from the worklist, puts its sides there, and
releases what is left.
-/
theorem step?_cases
    (underway : IsUnderway whole count state)
    (stepped : state.step? = some next) :
    ∃ value left right pending,
      state.pending = .node value left right :: pending ∧
      next =
        ⟨right.hold (left.hold pending), .leaf value :: state.released⟩ := by
  rcases state with ⟨pending, released⟩
  cases pending with
  | nil => cases stepped
  | cons subtree pending =>
      rcases underway.exists_node rfl with ⟨_, value, left, right, _, rfl, _⟩
      exact ⟨value, left, right, pending, rfl, (Option.some.inj stepped).symm⟩

/--
The step: what was detached hangs in the tree, one more node was released,
and none was lost.
-/
theorem step
    (underway : IsUnderway whole count state)
    (stepped : state.step? = some next) :
    IsUnderway whole (count + 1) next := by
  have kept := (nodes_of_step? stepped).trans underway.nodes_eq
  rcases underway.step?_cases stepped with
    ⟨value, left, right, pending, waiting, rfl⟩
  have hang := underway.hang
  rw [waiting] at hang
  rcases List.forall_mem_cons.mp hang with ⟨⟨_, address, _, found⟩, others⟩
  constructor
  · exact Tree.hangsIn_of_mem_hold found others
  · exact List.forall_mem_cons.mpr ⟨⟨value, rfl⟩, underway.bare⟩
  · exact congrArg Nat.succ underway.length_released
  · exact kept

end IsUnderway

/-- The run: after any number of steps the tree is being taken apart. -/
theorem isUnderway_of_after?
    (reached : (start whole).after? count = some state) :
    IsUnderway whole count state := by
  induction count generalizing state with
  | zero =>
      cases reached
      exact isUnderway_start whole
  | succ count induction =>
      rcases after?_succ_eq_some_iff.mp reached with
        ⟨middle, reachedMiddle, stepped⟩
      exact (induction reachedMiddle).step stepped

/-! ## How many steps there are -/

theorem length_flatMap_releaseOrder_of_bare
    {remainders : List (Tree α)}
    (bare : ∀ remainder ∈ remainders, ∃ value, remainder = .leaf value) :
    (remainders.flatMap Tree.releaseOrder).length = remainders.length := by
  induction remainders with
  | nil => rfl
  | cons remainder remainders induction =>
      rcases List.forall_mem_cons.mp bare with ⟨⟨value, rfl⟩, others⟩
      exact congrArg Nat.succ (induction others)

namespace IsUnderway

theorem length_flatMap_released (underway : IsUnderway whole count state) :
    (state.released.reverse.flatMap Tree.releaseOrder).length = count := by
  rw [length_flatMap_releaseOrder_of_bare, List.length_reverse,
    underway.length_released]
  exact fun remainder member =>
    underway.bare remainder (List.mem_reverse.mp member)

/-- The next node to be taken is the next one in the order of release. -/
theorem getElem?_releaseOrder (underway : IsUnderway whole count state) :
    whole.releaseOrder.tail[count]? = state.pending.head?.bind Tree.value? := by
  have length := underway.length_flatMap_released
  rw [← underway.nodes_eq, nodes, List.flatMap_append,
    List.getElem?_append_right (Nat.le_of_eq length), length, Nat.sub_self,
    ← List.head?_eq_getElem?]
  cases waiting : state.pending with
  | nil => rfl
  | cons subtree pending =>
      rcases underway.exists_node waiting with
        ⟨_, value, left, right, _, rfl, _⟩
      rfl

/-- The worklist is empty when all nodes below the root have been taken. -/
theorem pending_eq_nil_iff (underway : IsUnderway whole count state) :
    state.pending = [] ↔ whole.size - 1 ≤ count := by
  have next := underway.getElem?_releaseOrder
  rw [← Tree.length_releaseOrder, ← List.length_tail,
    ← List.getElem?_eq_none_iff, next]
  cases waiting : state.pending with
  | nil => exact iff_of_true rfl rfl
  | cons subtree pending =>
      rcases underway.exists_node waiting with
        ⟨_, value, left, right, _, rfl, _⟩
      exact iff_of_false nofun nofun

end IsUnderway

theorem exists_after? (bounded : count ≤ whole.size - 1) :
    ∃ state, (start whole).after? count = some state := by
  induction count with
  | zero => exact ⟨_, rfl⟩
  | succ count induction =>
      rcases induction (Nat.le_of_succ_le bounded) with ⟨state, reached⟩
      have underway := isUnderway_of_after? reached
      have waits : state.step? ≠ none := by
        rw [Ne, step?_eq_none_iff, underway.pending_eq_nil_iff]
        exact Nat.not_le_of_lt bounded
      rcases Option.ne_none_iff_exists'.mp waits with ⟨next, stepped⟩
      exact ⟨next, after?_succ_eq_some_iff.mpr ⟨state, reached, stepped⟩⟩

/-- A tree is taken apart in one step for each node below the root. -/
theorem exists_last (whole : Tree α) :
    ∃ last, (start whole).after? (whole.size - 1) = some last ∧
      last.step? = none ∧ (start whole).run = last := by
  rcases exists_after? (Nat.le_refl (whole.size - 1)) with ⟨last, reached⟩
  have nothing :=
    (isUnderway_of_after? reached).pending_eq_nil_iff.mpr (Nat.le_refl _)
  have ended : last.step? = none := step?_eq_none_iff.mpr nothing
  exact ⟨last, reached, ended,
    (run_of_after? reached).trans (run_of_step?_eq_none ended)⟩

end Dismantling

end Longest
