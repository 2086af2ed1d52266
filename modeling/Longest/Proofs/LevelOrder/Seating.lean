import Longest.Proofs.LevelOrder.RoundTrip
import Longest.Proofs.Tree.Address
import Mathlib.Data.List.ReduceOption
import Mathlib.Data.Set.Function

/-!
# Where the values of a level order sit

A tree read from level order has one node for every value of the list.  Which
node this is follows from ranks alone: the first entry is the root, and a value
at a later place `p` is a child of the node of rank `(p - 1) / 2`, on the left
side if `p` is odd and on the right side if it is even.

`placeOf` computes the place of a node from its address by this rule, and is a
bijection between the nodes of the tree and the places of values.
-/

namespace Longest.LevelOrder

open Longest.Tree

variable {α : Type}

/-! ## The values in breadth-first order -/

/--
The entries listed for a line of trees hold the values of its nodes,
in the same order.
-/
theorem reduceOption_childEntries (line : List (Tree α)) :
    (line.map value? ++
        (breadthFirstFrom line).flatMap childEntries).reduceOption =
      (breadthFirstFrom line).filterMap value? := by
  induction line using breadthFirstFrom.induct with
  | case1 =>
      rw [breadthFirstFrom]
      rfl
  | case2 line induction =>
      rw [breadthFirstFrom]
      exact induction
  | case3 value left right line induction =>
      have listed :
          (node value left right :: line).map value? ++
              (node value left right ::
                breadthFirstFrom (line ++ [left, right])).flatMap
                childEntries =
            some value ::
              ((line ++ [left, right]).map value? ++
                (breadthFirstFrom (line ++ [left, right])).flatMap
                  childEntries) := by
        simp [childEntries, child, value?]
      rw [breadthFirstFrom, listed, List.reduceOption_cons_of_some, induction]
      rfl

theorem reduceOption_dropAbsentEnd (entries : List (Option α)) :
    (dropAbsentEnd entries).reduceOption = entries.reduceOption := by
  have absent : (entries.rtakeWhile Option.isNone).reduceOption = [] := by
    apply List.filterMap_eq_nil_iff.mpr
    intro entry member
    exact Option.isNone_iff_eq_none.mp (List.mem_rtakeWhile_imp member)
  calc
    (dropAbsentEnd entries).reduceOption =
        (dropAbsentEnd entries ++
            entries.rtakeWhile Option.isNone).reduceOption := by
      rw [List.reduceOption_append, absent, List.append_nil]
    _ = entries.reduceOption := by
      rw [dropAbsentEnd_eq_rdropWhile, List.rdropWhile_append_rtakeWhile]

/-- The level order of a tree lists the values of its nodes breadth first. -/
theorem reduceOption_entries (tree : Tree α) :
    tree.entries.reduceOption = tree.breadthFirst.filterMap value? := by
  rw [Tree.entries, reduceOption_dropAbsentEnd]
  exact reduceOption_childEntries [tree]

theorem length_filterMap_breadthFirstFrom (line : List (Tree α)) :
    ((breadthFirstFrom line).filterMap value?).length = forestSize line := by
  induction line using breadthFirstFrom.induct with
  | case1 =>
      rw [breadthFirstFrom]
      rfl
  | case2 line induction =>
      rw [breadthFirstFrom, induction, forestSize, size, Nat.zero_add]
  | case3 value left right line induction =>
      have below :
          forestSize (line ++ [left, right]) =
            forestSize line + (left.size + right.size) :=
        forestSize_append line [left, right]
      rw [below] at induction
      rw [breadthFirstFrom, List.filterMap_cons_some (b := value) (by rfl),
        List.length_cons, induction, forestSize, size]
      omega

/-- The tree of a list has a node for every value. -/
theorem size_eq_countP
    {entries : List (Option α)} {tree : Tree α}
    (read : Tree.ofEntries? entries = .ok tree) :
    tree.size = entries.countP Option.isSome := by
  have listed := attached_isTreeAt_iff.mp (ofEntries?_eq_ok_iff.mp read)
  calc
    tree.size = (tree.breadthFirst.filterMap value?).length := by
      rw [breadthFirst, length_filterMap_breadthFirstFrom, forestSize,
        forestSize, Nat.add_zero]
    _ = entries.reduceOption.length := by
      rw [← reduceOption_entries, listed, reduceOption_dropAbsentEnd]
    _ = entries.countP Option.isSome := by
      rw [List.reduceOption_length_eq, List.countP_eq_length_filter]

/-! ## Places of nodes -/

/--
The side on which the value at a place behind the root hangs: left at odd
places.
-/
def sideOf (place : Nat) : Side :=
  if place % 2 = 1 then .left else .right

/--
The place of the entry to which an address leads: each step goes to a
child of a node.
-/
def placeOf (entries : List (Option α)) (address : Address) : Nat :=
  address.foldl (fun place side => childPlace (rank entries place) side) 0

@[simp]
theorem placeOf_nil (entries : List (Option α)) : placeOf entries [] = 0 :=
  rfl

@[simp]
theorem placeOf_concat
    (entries : List (Option α)) (address : Address) (side : Side) :
    placeOf entries (address ++ [side]) =
      childPlace (rank entries (placeOf entries address)) side :=
  List.foldl_concat _ 0 side address

theorem childPlace_pos (parent : Nat) (side : Side) :
    0 < childPlace parent side := by
  cases side <;> exact Nat.succ_pos _

theorem eq_childPlace_iff
    {place parent : Nat} {side : Side} (behind : 1 ≤ place) :
    place = childPlace parent side ↔
      (place - 1) / 2 = parent ∧ sideOf place = side := by
  cases side <;> simp only [childPlace, sideOf] <;> split_ifs <;>
    simp only [and_true, and_false, iff_false] <;> omega

section Placed

variable {entries : List (Option α)} {tree : Tree α}

theorem IsTreeAt.child
    {place : Nat} {value : α} {left right : Tree α}
    (isTree : IsTreeAt entries place (.node value left right)) (side : Side) :
    IsTreeAt entries (childPlace (rank entries place) side)
      ((node value left right).child side) := by
  cases isTree with
  | present entry isLeft isRight =>
      cases side with
      | left => exact isLeft
      | right => exact isRight

theorem IsTreeAt.ne_empty
    {place : Nat} {value : α} (isTree : IsTreeAt entries place tree)
    (entry : entryAt entries place = some value) :
    tree ≠ .empty := by
  rintro rfl
  have root := isTree.value?_eq
  rw [entry] at root
  cases root

/--
At the address of a subtree stands the tree that the entries
prescribe for its place.
-/
theorem IsTreeAt.subtree
    (isTree : IsTreeAt entries 0 tree) {address : Address} {subtree : Tree α}
    (found : tree.subtree? address = some subtree) :
    IsTreeAt entries (placeOf entries address) subtree := by
  induction address using List.reverseRecOn generalizing subtree with
  | nil =>
      cases found
      exact isTree
  | append_singleton address side induction =>
      rcases exists_of_subtree?_concat found with
        ⟨value, left, right, foundAbove, rfl⟩
      rw [placeOf_concat]
      exact (induction foundAbove).child side

theorem IsTreeAt.exists_entryAt
    (isTree : IsTreeAt entries 0 tree) {address : Address}
    (hasNode : tree.HasNode address) :
    ∃ value left right, entryAt entries (placeOf entries address) = some value ∧
      tree.subtree? address = some (.node value left right) := by
  rcases hasNode with ⟨value, left, right, found⟩
  exact ⟨value, left, right, (isTree.subtree found).value?_eq.symm, found⟩

theorem IsTreeAt.placeOf_inj
    (isTree : IsTreeAt entries 0 tree) {first second : Address}
    (hasFirst : tree.HasNode first)
    (hasSecond : tree.HasNode second)
    (same : placeOf entries first = placeOf entries second) :
    first = second := by
  induction first using List.reverseRecOn generalizing second with
  | nil =>
      cases second using List.reverseRecOn with
      | nil => rfl
      | append_singleton second side =>
          rw [placeOf_nil, placeOf_concat] at same
          exact absurd same (Nat.ne_of_lt (childPlace_pos _ side))
  | append_singleton first side induction =>
      cases second using List.reverseRecOn with
      | nil =>
          rw [placeOf_nil, placeOf_concat] at same
          exact absurd same.symm (Nat.ne_of_lt (childPlace_pos _ side))
      | append_singleton second side' =>
          rw [placeOf_concat, placeOf_concat, childPlace_inj] at same
          rcases same with ⟨sameRank, rfl⟩
          rcases isTree.exists_entryAt hasFirst.of_concat with
            ⟨_, _, _, entry, _⟩
          rcases isTree.exists_entryAt hasSecond.of_concat with
            ⟨_, _, _, entry', _⟩
          have samePlace := place_eq_of_rank_eq entry entry' sameRank
          rw [induction hasFirst.of_concat hasSecond.of_concat samePlace]

/-- A value behind the root has a node before it whose child it is. -/
theorem Attached.exists_parent
    (attached : Attached entries) {place : Nat} {value : α}
    (behind : 1 ≤ place)
    (entry : entryAt entries place = some value) :
    ∃ parent parentValue, parent < place ∧
      entryAt entries parent = some parentValue ∧
      rank entries parent = (place - 1) / 2 := by
  have bounded := attached place value entry
  exact exists_place_of_lt_rank (by omega)

/-- What hangs on a side of a node is found in the entry for it. -/
theorem IsTreeAt.exists_child
    (isTree : IsTreeAt entries 0 tree) {address : Address}
    (hasNode : tree.HasNode address)
    (side : Side) :
    ∃ child, tree.subtree? (address ++ [side]) = some child ∧
      child.value? =
        entryAt entries
          (childPlace (rank entries (placeOf entries address)) side) := by
  rcases hasNode with ⟨value, left, right, found⟩
  have foundBelow := subtree?_concat side found
  have below := isTree.subtree foundBelow
  rw [placeOf_concat] at below
  exact ⟨_, foundBelow, below.value?_eq⟩

theorem IsTreeAt.hasNode_concat
    (isTree : IsTreeAt entries 0 tree) {address : Address}
    (hasNode : tree.HasNode address)
    {place : Nat} {value : α} {side : Side}
    (isPlace :
      place = childPlace (rank entries (placeOf entries address)) side)
    (entry : entryAt entries place = some value) :
    tree.HasNode (address ++ [side]) ∧
      placeOf entries (address ++ [side]) = place := by
  rcases isTree.exists_child hasNode side with ⟨child, found, sameValue⟩
  rw [← isPlace, entry] at sameValue
  refine ⟨?_, (placeOf_concat entries address side).trans isPlace.symm⟩
  cases child with
  | empty => cases sameValue
  | node value' left right => exact ⟨value', left, right, found⟩

theorem IsTreeAt.exists_placeOf
    (isTree : IsTreeAt entries 0 tree) (attached : Attached entries)
    {place : Nat} {value : α}
    (entry : entryAt entries place = some value) :
    ∃ address, tree.HasNode address ∧ placeOf entries address = place := by
  induction place using Nat.strong_induction_on generalizing value with
  | _ place induction =>
      rcases Nat.eq_zero_or_pos place with rfl | behind
      · exact ⟨[], hasNode_nil_iff.mpr (isTree.ne_empty entry), rfl⟩
      · rcases attached.exists_parent behind entry with
          ⟨parent, parentValue, before, parentEntry, parentRank⟩
        rcases induction parent before parentEntry with ⟨address, hasNode, rfl⟩
        have isPlace := (eq_childPlace_iff behind).mpr ⟨parentRank.symm, rfl⟩
        exact ⟨address ++ [sideOf place],
          isTree.hasNode_concat hasNode isPlace entry⟩

/--
The nodes of the tree and the values of the list correspond to each other.
-/
theorem IsTreeAt.bijOn_placeOf
    (isTree : IsTreeAt entries 0 tree) (attached : Attached entries) :
    Set.BijOn (placeOf entries) {address | tree.HasNode address}
      {place | ∃ value, entryAt entries place = some value} := by
  refine ⟨?_, ?_, ?_⟩
  · intro address hasNode
    rcases isTree.exists_entryAt hasNode with ⟨value, _, _, entry, _⟩
    exact ⟨value, entry⟩
  · intro first hasFirst second hasSecond same
    exact isTree.placeOf_inj hasFirst hasSecond same
  · rintro place ⟨value, entry⟩
    exact isTree.exists_placeOf attached entry

end Placed

/-! ## The positional law -/

/--
The addresses of the nodes in which the values of a list sit.  The place
behind the root at which a value stands tells its parent by the rank and its
side by the parity.
-/
structure IsSeating
    (entries : List (Option α)) (tree : Tree α) (seat : Nat → Address) :
    Prop where
  /-- Each value sits in one node, and in each node sits one value. -/
  bijOn :
    Set.BijOn seat {place | ∃ value, entryAt entries place = some value}
      {address | tree.HasNode address}
  value :
    ∀ place value, entryAt entries place = some value →
      ∃ left right, tree.subtree? (seat place) = some (.node value left right)
  root : (∃ value, entryAt entries 0 = some value) ∧ seat 0 = []
  child :
    ∀ place value, 1 ≤ place → entryAt entries place = some value →
      ∃ parent parentValue, entryAt entries parent = some parentValue ∧
        rank entries parent = (place - 1) / 2 ∧
          seat place = seat parent ++ [sideOf place]
  /-- There are no other children. -/
  absent :
    ∀ parent parentValue side, entryAt entries parent = some parentValue →
      (∀ place value, 1 ≤ place → entryAt entries place = some value →
        rank entries parent = (place - 1) / 2 → sideOf place ≠ side) →
      tree.subtree? (seat parent ++ [side]) = some .empty

theorem IsTreeAt.exists_isSeating
    {entries : List (Option α)} {tree : Tree α}
    (isTree : IsTreeAt entries 0 tree)
    (attached : Attached entries) (nonempty : tree ≠ .empty) :
    ∃ seat, IsSeating entries tree seat := by
  have bijection := isTree.bijOn_placeOf attached
  have inverse := bijection.invOn_invFunOn
  generalize
    Function.invFunOn (placeOf entries) {address | tree.HasNode address} = seat
    at inverse
  have seat_placeOf :
      ∀ {address}, tree.HasNode address →
        seat (placeOf entries address) = address :=
    fun hasNode => inverse.1 hasNode
  have hasRoot : tree.HasNode [] := hasNode_nil_iff.mpr nonempty
  refine ⟨seat, (Set.bijOn_comm inverse).mpr bijection, ?_,
    ⟨?_, seat_placeOf hasRoot⟩, ?_, ?_⟩
  · intro place value entry
    rcases isTree.exists_placeOf attached entry with ⟨address, hasNode, rfl⟩
    rcases isTree.exists_entryAt hasNode with ⟨_, left, right, entry', found⟩
    rw [entry] at entry'
    cases entry'
    rw [seat_placeOf hasNode]
    exact ⟨left, right, found⟩
  · rcases isTree.exists_entryAt hasRoot with ⟨value, _, _, entry, _⟩
    exact ⟨value, entry⟩
  · intro place value behind entry
    rcases attached.exists_parent behind entry with
      ⟨parent, parentValue, _, parentEntry, parentRank⟩
    rcases isTree.exists_placeOf attached parentEntry with
      ⟨address, hasNode, rfl⟩
    have isPlace := (eq_childPlace_iff behind).mpr ⟨parentRank.symm, rfl⟩
    have ⟨hasChild, childIsPlace⟩ := isTree.hasNode_concat hasNode isPlace entry
    have isChild : seat place = address ++ [sideOf place] := by
      rw [← seat_placeOf hasChild, childIsPlace]
    refine ⟨placeOf entries address, parentValue, parentEntry, parentRank, ?_⟩
    rw [seat_placeOf hasNode, isChild]
  · intro parent parentValue side parentEntry unnamed
    rcases isTree.exists_placeOf attached parentEntry with
      ⟨address, hasNode, rfl⟩
    rcases isTree.exists_child hasNode side with ⟨child, found, sameValue⟩
    rw [seat_placeOf hasNode, found]
    cases child with
    | empty => rfl
    | node childValue left right =>
        have behind :=
          childPlace_pos (rank entries (placeOf entries address)) side
        have ⟨isRank, isSide⟩ := (eq_childPlace_iff behind).mp rfl
        exact absurd isSide
          (unnamed _ childValue behind sameValue.symm isRank.symm)

/--
The positional law of level order.  If a list is read as a nonempty tree, the
tree has one node for each value.  The first entry is the root, and a value
at a later place `p` is the left child, if `p` is odd, or the right child, if
`p` is even, of the value of rank `(p - 1) / 2`; a child that no value is in
this way is absent.
-/
theorem ofEntries?_isSeating
    {entries : List (Option α)} {tree : Tree α}
    (read : Tree.ofEntries? entries = .ok tree)
    (nonempty : tree ≠ .empty) :
    tree.size = entries.countP Option.isSome ∧
      ∃ seat, IsSeating entries tree seat := by
  have ⟨attached, isTree⟩ := ofEntries?_eq_ok_iff.mp read
  exact ⟨size_eq_countP read, isTree.exists_isSeating attached nonempty⟩

/--
The last value has rank 4 and hangs on the left of the value of rank 3; its
sibling's entry is no longer in the list.
-/
theorem isSeating_of_bent_chain :
    let entries :=
      [some 10, none, some 20, some 30, none, none, some 40, some 50]
    let tree :=
      node 10 empty (node 20 (node 30 empty (node 40 (leaf 50) empty)) empty)
    Tree.ofEntries? entries = .ok tree ∧ tree ≠ empty ∧ tree.size = 5 ∧
      ∃ seat, IsSeating entries tree seat ∧
        ∃ parent, rank entries parent = 3 ∧
          seat 7 = seat parent ++ [.left] := by
  intro entries tree
  have read : Tree.ofEntries? entries = .ok tree := by decide
  have nonempty : tree ≠ empty := nofun
  rcases ofEntries?_isSeating read nonempty with ⟨size, seat, isSeating⟩
  rcases isSeating.child 7 50 (by decide) rfl with
    ⟨parent, _, _, parentRank, isChild⟩
  exact ⟨read, nonempty, size, seat, isSeating, parent, parentRank, isChild⟩

end Longest.LevelOrder
