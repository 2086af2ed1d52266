import Longest.Proofs.LevelOrder.Rebuild
import Mathlib.Data.List.DropRight
import Mathlib.Data.List.Induction

/-!
# Level order is read back

The trees that stand in line during a breadth-first traversal are those at
consecutive places of the level order, from the tree to be served next up to the
last child of the nodes served.  So the traversal lists the entries that follow,
and the tree read off a list by the positional rule is the one whose level order
is this list, up to absent entries at the end.

Together with what reading and building do this makes `Tree.ofEntries?` and
`Tree.entries` inverse to each other.
-/

namespace Longest.LevelOrder

open Longest.Tree

variable {α : Type}

/-! ## Absent entries at the end -/

theorem dropAbsentEnd_eq_rdropWhile (entries : List (Option α)) :
    dropAbsentEnd entries = entries.rdropWhile Option.isNone :=
  rfl

@[simp]
theorem entryAt_dropAbsentEnd (entries : List (Option α)) (place : Nat) :
    entryAt (dropAbsentEnd entries) place = entryAt entries place := by
  have absent : ∀ entry ∈ entries.rtakeWhile Option.isNone, entry = none := by
    intro entry member
    exact Option.isNone_iff_eq_none.mp (List.mem_rtakeWhile_imp member)
  calc
    entryAt (dropAbsentEnd entries) place =
        entryAt (dropAbsentEnd entries ++ entries.rtakeWhile Option.isNone)
          place :=
      (entryAt_append_of_absent absent place).symm
    _ = entryAt entries place := by
      rw [dropAbsentEnd_eq_rdropWhile, List.rdropWhile_append_rtakeWhile]

theorem dropAbsentEnd_eq_nil
    {entries : List (Option α)}
    (absent : ∀ place, entryAt entries place = none) :
    dropAbsentEnd entries = [] := by
  rw [dropAbsentEnd_eq_rdropWhile, List.rdropWhile_eq_nil_iff]
  intro entry member
  rcases List.mem_iff_getElem?.mp member with ⟨place, found⟩
  have isNone := absent place
  rw [entryAt, found] at isNone
  exact Option.isNone_iff_eq_none.mpr isNone

theorem dropAbsentEnd_cons (entry : Option α) (entries : List (Option α)) :
    dropAbsentEnd (entry :: entries) =
      if dropAbsentEnd entries = [] then dropAbsentEnd [entry]
      else entry :: dropAbsentEnd entries := by
  by_cases nothingLeft : dropAbsentEnd entries = []
  · have isEmpty :=
      List.isEmpty_iff.mpr (List.reverse_eq_nil_iff.mp nothingLeft)
    rw [if_pos nothingLeft, dropAbsentEnd, List.reverse_cons,
      List.dropWhile_append, if_pos isEmpty]
    rfl
  · have notEmpty :=
      mt (List.reverse_eq_nil_iff.mpr ∘ List.isEmpty_iff.mp) nothingLeft
    rw [if_neg nothingLeft, dropAbsentEnd, List.reverse_cons,
      List.dropWhile_append, if_neg notEmpty, List.reverse_append]
    rfl

/--
Without the absent entries at the end a list is determined by its entries.
-/
theorem dropAbsentEnd_eq_iff {entries entries' : List (Option α)} :
    dropAbsentEnd entries = dropAbsentEnd entries' ↔
      ∀ place, entryAt entries place = entryAt entries' place := by
  constructor
  · intro same place
    rw [← entryAt_dropAbsentEnd, same, entryAt_dropAbsentEnd]
  · intro same
    induction entries generalizing entries' with
    | nil =>
        exact (dropAbsentEnd_eq_nil fun place => (same place).symm).symm
    | cons entry entries induction =>
        cases entries' with
        | nil => exact dropAbsentEnd_eq_nil same
        | cons entry' entries' =>
            have sameEntry : entry = entry' := same 0
            have sameRest := induction fun place => same (place + 1)
            rw [dropAbsentEnd_cons entry entries,
              dropAbsentEnd_cons entry' entries', sameEntry, sameRest]

/-! ## The line of a breadth-first traversal -/

/-- The nodes of a row of trees are served before those of the row below. -/
theorem breadthFirstFrom_append (row below : List (Tree α)) :
    breadthFirstFrom (row ++ below) =
      row.filter (!·.isEmpty) ++
        breadthFirstFrom
          (below ++
            (row.filter (!·.isEmpty)).flatMap
              fun tree => [tree.child .left, tree.child .right]) := by
  induction row generalizing below with
  | nil =>
      rw [List.filter_nil, List.flatMap_nil, List.append_nil]
      rfl
  | cons tree row induction =>
      cases tree with
      | empty =>
          rw [List.cons_append, breadthFirstFrom, induction below]
          rfl
      | node value left right =>
          rw [List.cons_append, breadthFirstFrom, List.append_assoc, induction,
            List.append_assoc]
          rfl

/-- Breadth first, the trees of a row come level by level. -/
theorem breadthFirstFrom_eq_append (row : List (Tree α)) :
    breadthFirstFrom row =
      row.filter (!·.isEmpty) ++
        breadthFirstFrom
          ((row.filter (!·.isEmpty)).flatMap fun tree =>
            [tree.child .left, tree.child .right]) := by
  have whole := breadthFirstFrom_append row []
  rw [List.append_nil, List.nil_append] at whole
  exact whole

/--
The trees in line are those at the places from `first` on.  The last of them is
the last child of the nodes before `first`.
-/
structure IsLine
    (entries : List (Option α)) (first : Nat) (trees : List (Tree α)) :
    Prop where
  length : first + trees.length = 2 * rank entries first + 1
  isTree :
    ∀ offset tree, trees[offset]? = some tree →
      IsTreeAt entries (first + offset) tree

theorem getElem?_append_pair
    {trees : List (Tree α)} {left right tree : Tree α} {offset : Nat}
    (found : (trees ++ [left, right])[offset]? = some tree) :
    trees[offset]? = some tree ∨ (offset = trees.length ∧ tree = left) ∨
      (offset = trees.length + 1 ∧ tree = right) := by
  rcases Nat.lt_or_ge offset trees.length with inside | outside
  · rw [List.getElem?_append_left inside] at found
    exact Or.inl found
  · rcases Nat.exists_eq_add_of_le outside with ⟨behind, rfl⟩
    rw [List.getElem?_append_right outside, Nat.add_sub_cancel_left] at found
    match behind with
    | 0 => exact Or.inr (Or.inl ⟨rfl, (Option.some.inj found).symm⟩)
    | 1 => exact Or.inr (Or.inr ⟨rfl, (Option.some.inj found).symm⟩)
    | behind + 2 => cases found

variable {entries : List (Option α)} {first : Nat} {trees : List (Tree α)}

theorem isLine_nil_iff :
    IsLine entries first [] ↔ first = 2 * rank entries first + 1 := by
  constructor
  · exact IsLine.length
  · intro exhausted
    refine ⟨exhausted, ?_⟩
    intro offset tree found
    cases found

theorem isLine_cons_empty_iff :
    IsLine entries first (empty :: trees) ↔
      entryAt entries first = none ∧ IsLine entries (first + 1) trees := by
  constructor
  · intro isLine
    have absent : entryAt entries first = none :=
      (isLine.isTree 0 empty rfl).value?_eq.symm
    refine ⟨absent, ?_, ?_⟩
    · rw [rank_succ_of_none absent, ← isLine.length, List.length_cons,
        Nat.add_right_comm]
      rfl
    · intro offset tree found
      rw [Nat.add_right_comm]
      exact isLine.isTree (offset + 1) tree found
  · rintro ⟨absent, isLine⟩
    have length := isLine.length
    rw [rank_succ_of_none absent] at length
    constructor
    · rw [← length, List.length_cons, Nat.add_right_comm]
      rfl
    · intro offset tree found
      cases offset with
      | zero =>
          cases found
          exact .absent absent
      | succ offset =>
          have isTree := isLine.isTree offset tree found
          rw [Nat.add_right_comm] at isTree
          exact isTree

theorem places_behind
    {first length number : Nat}
    (isLength : first + (length + 1) = 2 * number + 1) :
    first + 1 + length = 2 * number + 1 ∧
      first + 1 + (length + 1) = 2 * number + 2 := by
  omega

/--
If a node is served, its children come to stand at the places behind the line.
-/
theorem isLine_cons_node_iff {value : α} {left right : Tree α} :
    IsLine entries first (node value left right :: trees) ↔
      entryAt entries first = some value ∧
        IsLine entries (first + 1) (trees ++ [left, right]) := by
  constructor
  · intro isLine
    have length := isLine.length
    rw [List.length_cons] at length
    cases isLine.isTree 0 _ rfl with
    | present entry isLeft isRight =>
        rw [Nat.add_zero] at entry isLeft isRight
        refine ⟨entry, ?_, ?_⟩
        · rw [rank_succ_of_some entry, List.length_append]
          show first + 1 + (trees.length + 2) = _
          omega
        · intro offset tree found
          rcases getElem?_append_pair found with
            inLine | ⟨rfl, rfl⟩ | ⟨rfl, rfl⟩
          · rw [Nat.add_right_comm]
            exact isLine.isTree (offset + 1) tree inLine
          · rw [(places_behind length).1]
            exact isLeft
          · rw [(places_behind length).2]
            exact isRight
  · rintro ⟨entry, isLine⟩
    have length : first + (trees.length + 1) = 2 * rank entries first + 1 := by
      have nextLength := isLine.length
      rw [rank_succ_of_some entry, List.length_append] at nextLength
      change first + 1 + (trees.length + 2) = _ at nextLength
      omega
    constructor
    · exact length
    · intro offset tree found
      cases offset with
      | zero =>
          cases found
          have isLeft := isLine.isTree trees.length left (by simp)
          have isRight := isLine.isTree (trees.length + 1) right (by simp)
          rw [(places_behind length).1] at isLeft
          rw [(places_behind length).2] at isRight
          exact .present entry isLeft isRight
      | succ offset =>
          have inside := (List.getElem?_eq_some_iff.mp found).1
          have isTree := isLine.isTree offset tree
            ((List.getElem?_append_left (Nat.lt_of_succ_lt_succ inside)).trans
              found)
          rw [Nat.add_right_comm] at isTree
          exact isTree

theorem entryAt_eq_none_of_exhausted
    (attached : Attached entries)
    (exhausted : first = 2 * rank entries first + 1)
    {place : Nat} (notBefore : first ≤ place) :
    entryAt entries place = none := by
  induction place using Nat.strong_induction_on with
  | h place induction =>
      by_contra isValue
      rcases Option.ne_none_iff_exists'.mp isValue with ⟨value, entry⟩
      have bounded := attached place value entry
      have sameRank := rank_eq_of_absent notBefore
        fun between notBefore' before => induction between before notBefore'
      rw [sameRank] at bounded
      omega

/-- The traversal lists the entries behind the line. -/
theorem IsLine.entryAt_childEntries
    (isLine : IsLine entries first trees) (attached : Attached entries)
    (offset : Nat) :
    entryAt entries (2 * rank entries first + 1 + offset) =
      entryAt ((breadthFirstFrom trees).flatMap childEntries) offset := by
  induction trees using breadthFirstFrom.induct generalizing first offset with
  | case1 =>
      have exhausted := isLine_nil_iff.mp isLine
      rw [breadthFirstFrom]
      apply entryAt_eq_none_of_exhausted attached exhausted
      rw [← exhausted]
      exact Nat.le_add_right first offset
  | case2 trees induction =>
      rcases isLine_cons_empty_iff.mp isLine with ⟨absent, restLine⟩
      rw [breadthFirstFrom, ← induction restLine, rank_succ_of_none absent]
  | case3 value left right trees induction =>
      rcases isLine_cons_node_iff.mp isLine with ⟨entry, longerLine⟩
      have length := isLine.length
      rw [List.length_cons] at length
      rw [breadthFirstFrom, List.flatMap_cons]
      match offset with
      | 0 =>
          have isLeft := longerLine.isTree trees.length left (by simp)
          rw [(places_behind length).1] at isLeft
          exact isLeft.value?_eq.symm
      | 1 =>
          have isRight := longerLine.isTree (trees.length + 1) right (by simp)
          rw [(places_behind length).2] at isRight
          exact isRight.value?_eq.symm
      | offset + 2 =>
          have later := induction longerLine offset
          rw [rank_succ_of_some entry] at later
          have place :
              2 * rank entries first + 1 + (offset + 2) =
                2 * (rank entries first + 1) + 1 + offset := by omega
          rw [place]
          exact later

/--
Conversely, if the traversal lists the entries behind a row of trees of which
these entries have the roots, then the trees stand in line, and all values from
there on are attached.
-/
theorem isLine_of_entryAt_childEntries
    (length : first + trees.length = 2 * rank entries first + 1)
    (roots :
      ∀ offset tree, trees[offset]? = some tree →
        entryAt entries (first + offset) = tree.value?)
    (listed :
      ∀ offset,
        entryAt entries (2 * rank entries first + 1 + offset) =
          entryAt ((breadthFirstFrom trees).flatMap childEntries) offset) :
    IsLine entries first trees ∧
      ∀ place value, first ≤ place → entryAt entries place = some value →
        place ≤ 2 * rank entries place := by
  induction trees using breadthFirstFrom.induct generalizing first with
  | case1 =>
      have exhausted : first = 2 * rank entries first + 1 := length
      refine ⟨isLine_nil_iff.mpr exhausted, ?_⟩
      intro place value notBefore entry
      rcases Nat.exists_eq_add_of_le notBefore with ⟨offset, rfl⟩
      have absent := listed offset
      rw [← exhausted, entry, breadthFirstFrom] at absent
      cases absent
  | case2 trees induction =>
      have absent : entryAt entries first = none := roots 0 empty rfl
      have sameRank := rank_succ_of_none absent
      rw [breadthFirstFrom] at listed
      have later := @induction (first + 1) ?_ ?_ ?_
      · rcases later with ⟨isLine, attached⟩
        refine ⟨isLine_cons_empty_iff.mpr ⟨absent, isLine⟩, ?_⟩
        intro place value notBefore entry
        rcases Nat.eq_or_lt_of_le notBefore with rfl | behind
        · rw [absent] at entry
          cases entry
        · exact attached place value behind entry
      · rw [sameRank, ← length, List.length_cons, Nat.add_right_comm]
        rfl
      · intro offset tree found
        rw [Nat.add_right_comm]
        exact roots (offset + 1) tree found
      · rw [sameRank]
        exact listed
  | case3 value left right trees induction =>
      have entry : entryAt entries first = some value := roots 0 _ rfl
      have nextRank := rank_succ_of_some entry
      rw [List.length_cons] at length
      rw [breadthFirstFrom, List.flatMap_cons] at listed
      have later := @induction (first + 1) ?_ ?_ ?_
      · rcases later with ⟨isLine, attached⟩
        refine ⟨isLine_cons_node_iff.mpr ⟨entry, isLine⟩, ?_⟩
        intro place placeValue notBefore placeEntry
        rcases Nat.eq_or_lt_of_le notBefore with rfl | behind
        · omega
        · exact attached place placeValue behind placeEntry
      · rw [nextRank, List.length_append]
        show first + 1 + (trees.length + 2) = _
        omega
      · intro offset tree found
        rcases getElem?_append_pair found with inLine | ⟨rfl, rfl⟩ | ⟨rfl, rfl⟩
        · rw [Nat.add_right_comm]
          exact roots (offset + 1) tree inLine
        · rw [(places_behind length).1]
          exact listed 0
        · rw [(places_behind length).2]
          exact listed 1
      · intro offset
        have place :
            2 * rank entries (first + 1) + 1 + offset =
              2 * rank entries first + 1 + (offset + 2) := by
          rw [nextRank]
          omega
        rw [place]
        exact listed (offset + 2)

/-! ## The two directions -/

/--
The positional rule reads a tree off its level order and off no other list.
-/
theorem attached_isTreeAt_iff {tree : Tree α} :
    Attached entries ∧ IsTreeAt entries 0 tree ↔
      tree.entries = dropAbsentEnd entries := by
  have isRoot :
      ∀ offset root, [tree][offset]? = some root →
        root = tree ∧ offset = 0 := by
    intro offset root found
    match offset with
    | 0 => exact ⟨(Option.some.inj found).symm, rfl⟩
    | offset + 1 => cases found
  rw [Tree.entries, dropAbsentEnd_eq_iff]
  constructor
  · rintro ⟨attached, isTree⟩ place
    have isLine : IsLine entries 0 [tree] := by
      refine ⟨rfl, ?_⟩
      intro offset root found
      rcases isRoot offset root found with ⟨rfl, rfl⟩
      exact isTree
    cases place with
    | zero => exact isTree.value?_eq
    | succ place =>
        have listed := isLine.entryAt_childEntries attached place
        rw [rank_zero, Nat.mul_zero, Nat.zero_add, Nat.add_comm] at listed
        exact listed.symm
  · intro same
    have isLine : IsLine entries 0 [tree] ∧ _ :=
      isLine_of_entryAt_childEntries rfl ?_ ?_
    · rcases isLine with ⟨isLine, attached⟩
      refine ⟨fun place value => attached place value (Nat.zero_le place), ?_⟩
      exact isLine.isTree 0 tree rfl
    · intro offset root found
      rcases isRoot offset root found with ⟨rfl, rfl⟩
      exact (same 0).symm
    · intro offset
      rw [rank_zero, Nat.mul_zero, Nat.zero_add, Nat.add_comm]
      exact (same (offset + 1)).symm

/--
Reading succeeds exactly on the lists off which the positional rule reads a
tree.
-/
theorem ofEntries?_eq_ok_iff {tree : Tree α} :
    Tree.ofEntries? entries = .ok tree ↔
      Attached entries ∧ IsTreeAt entries 0 tree := by
  have reading := reading_ofEntries? entries
  rw [Tree.ofEntries?]
  generalize Numbering.ofEntries? entries = result at reading
  cases reading with
  | empty absent =>
      have attached := attached_of_absent absent
      have isEmpty : IsTreeAt entries 0 (.empty : Tree α) := .absent (absent 0)
      constructor
      · intro result
        cases result
        exact ⟨attached, isEmpty⟩
      · rintro ⟨_, isTree⟩
        exact congrArg Except.ok (isEmpty.unique isTree)
  | @numbered taken served numbering value first same records =>
      have attached := records.attached.congr same
      have isTree := (records.isTreeAt_toTree ((same 0).trans first)).congr same
      constructor
      · intro result
        cases result
        exact ⟨attached, isTree⟩
      · rintro ⟨_, isTree'⟩
        exact congrArg Except.ok (isTree.unique isTree')
  | @detached place value entry behind least =>
      constructor
      · intro result
        cases result
      · rintro ⟨attached, _⟩
        exact absurd (attached place value entry) (Nat.not_le_of_lt behind)

/--
A list is read as a tree exactly if its entries are those of the level
order of this tree.
-/
theorem ofEntries?_eq_ok_iff_entryAt {tree : Tree α} :
    Tree.ofEntries? entries = .ok tree ↔
      ∀ place, entryAt tree.entries place = entryAt entries place := by
  rw [ofEntries?_eq_ok_iff, attached_isTreeAt_iff, Tree.entries,
    dropAbsentEnd_eq_iff]
  simp only [entryAt_dropAbsentEnd]

/--
Reading and listing are inverse to each other.  A tree is read back from
its level order with any number of absent entries added, and a list is read
as a tree exactly if it is the level order of this tree up to absent
entries at the end.
-/
theorem ofEntries?_entries_inverse :
    (∀ (tree : Tree α) (count : Nat),
        Tree.ofEntries? (tree.entries ++ List.replicate count none) =
          .ok tree) ∧
      ∀ (values : List (Option α)) (tree : Tree α),
        Tree.ofEntries? values = .ok tree ↔
          tree.entries = dropAbsentEnd values := by
  have read_iff : ∀ (values : List (Option α)) (tree : Tree α),
      Tree.ofEntries? values = .ok tree ↔ tree.entries = dropAbsentEnd values :=
    fun values tree => ofEntries?_eq_ok_iff.trans attached_isTreeAt_iff
  refine ⟨?_, read_iff⟩
  intro tree count
  have absent :
      ∀ entry ∈ List.replicate count (none : Option α), entry = none :=
    fun entry member => List.eq_of_mem_replicate member
  rw [read_iff, Tree.entries, dropAbsentEnd_eq_iff]
  intro place
  rw [entryAt_append_of_absent absent, entryAt_dropAbsentEnd]

end Longest.LevelOrder
