import Longest.LevelOrder.Numbering
import Longest.Proofs.LevelOrder.Places

/-!
# What has been read

`Records entries served numbering` says that the cells of a numbering are those
that the entries read so far prescribe, and that the nodes from number `served`
on still await their children.  Attaching one more entry to the node whose turn
it is keeps this up, so it holds whenever reading stops.

`Reading` is the result for a whole list: no value at all, a numbering of all
values, or the first value that has no node before it whose child it could be.
-/

namespace Longest.LevelOrder

open Longest.LevelOrder.Numbering

variable {α : Type}

/-- The place of the entry for one of the children of a node. -/
def childPlace (parent : Nat) : Side → Nat
  | .left => 2 * parent + 1
  | .right => 2 * parent + 2

theorem childPlace_inj {first second : Nat} {side side' : Side} :
    childPlace first side = childPlace second side' ↔
      first = second ∧ side = side' := by
  cases side <;> cases side' <;>
    simp only [childPlace, reduceCtorEq, and_true, and_false, iff_false] <;>
      omega

/-- The cell that the entries prescribe for a node. -/
def cellOf (entries : List (Option α)) (number : Nat) (value : α) : Cell α :=
  ⟨value, numberAt entries (childPlace number .left),
    numberAt entries (childPlace number .right)⟩

/-- A numbering that agrees with the entries read. -/
structure Records
    (entries : List (Option α)) (served : Nat) (numbering : Numbering α) :
    Prop where
  /-- Every value has a cell. -/
  size : numbering.cells.size = rank entries entries.length
  /-- The cells are those prescribed. -/
  cell :
    ∀ place value, entryAt entries place = some value →
      numbering.cells[rank entries place]? =
        some (cellOf entries (rank entries place) value)
  /-- Every value found its node. -/
  attached : Attached entries
  served_le : served ≤ numbering.cells.size
  /-- The nodes from `served` on wait in the order of their numbers. -/
  waiting :
    numbering.waiting.toList =
      List.range' served (numbering.cells.size - served)

/-! ## One more entry -/

section Concat

variable (entries : List (Option α)) (entry : Option α)

theorem entryAt_concat (place : Nat) :
    entryAt (entries ++ [entry]) place =
      if place = entries.length then entry else entryAt entries place := by
  split_ifs with isLast
  · subst isLast
    exact entryAt_append_right entries [entry] 0
  · rcases Nat.lt_or_gt_of_ne isLast with inside | outside
    · exact entryAt_append_left [entry] inside
    · rw [entryAt_of_length_le (Nat.le_of_lt outside), entryAt_of_length_le]
      rw [List.length_append, List.length_singleton]
      exact outside

theorem rank_append_left
    {place : Nat} (more : List (Option α)) (inside : place ≤ entries.length) :
    rank (entries ++ more) place = rank entries place := by
  rw [rank, rank, List.take_append_of_le_length inside]

theorem numberAt_concat (place : Nat) :
    numberAt (entries ++ [entry]) place =
      if place = entries.length then
        entry.map fun _ => rank entries entries.length
      else numberAt entries place := by
  rw [numberAt, entryAt_concat]
  split_ifs with isLast
  · subst isLast
    rw [rank_append_left entries [entry] (Nat.le_refl _)]
  · cases found : entryAt entries place with
    | none => rw [numberAt, found]; rfl
    | some value =>
        rw [numberAt, found, rank_append_left entries [entry]
          (Nat.le_of_lt (lt_length_of_entryAt found))]

/--
A new value is entered as a child in the cell that it belongs to,
and in no other.
-/
theorem cellOf_concat
    {parent : Nat} {side : Side} (value : α)
    (isPlace : entries.length = childPlace parent side)
    (number : Nat) (rootValue : α) :
    cellOf (entries ++ [some value]) number rootValue =
      if parent = number then
        (cellOf entries number rootValue).link side
          (rank entries entries.length)
      else cellOf entries number rootValue := by
  simp only [cellOf, numberAt_concat, isPlace, childPlace_inj]
  by_cases same : parent = number
  · subst same
    cases side <;> simp [Cell.link]
  · simp [same, Ne.symm same]

end Concat

theorem le_two_mul_of_childPlace {length parent : Nat} {side : Side}
    (isPlace : length = childPlace parent side) :
    2 * parent < length ∧ length ≤ 2 * (parent + 1) := by
  cases side <;> simp only [childPlace] at isPlace <;> omega

/-- The children of a node have greater numbers than the node. -/
theorem Attached.lt_rank_childPlace
    {entries : List (Option α)} (attached : Attached entries)
    {number : Nat} {value : α} (side : Side)
    (entry : entryAt entries (childPlace number side) = some value) :
    number < rank entries (childPlace number side) := by
  have bounded := attached _ value entry
  have behind : 2 * number < childPlace number side :=
    (le_two_mul_of_childPlace rfl).1
  omega

namespace Records

variable {entries : List (Option α)} {served parent : Nat}
  {numbering : Numbering α}

theorem concat_none (records : Records entries served numbering) :
    Records (entries ++ [none]) served numbering := by
  have same :
      ∀ place, entryAt entries place = entryAt (entries ++ [none]) place :=
    fun place => (entryAt_append_of_absent (by simp) place).symm
  have sameNumber :
      ∀ place, numberAt (entries ++ [none]) place = numberAt entries place := by
    intro place
    rw [numberAt, numberAt, same, rank_congr same]
  refine ⟨?_, ?_, records.attached.congr same, records.served_le,
    records.waiting⟩
  · rw [List.length_append, List.length_singleton,
      rank_succ_of_none
        ((same _).symm.trans (entryAt_of_length_le (Nat.le_refl _))),
      ← rank_congr same]
    exact records.size
  · intro place value entry
    rw [← same] at entry
    rw [← rank_congr same, cellOf, sameNumber, sameNumber]
    exact records.cell place value entry

/--
Every number is that of a value, and its cell is the one prescribed for this
value.
-/
theorem exists_cell
    (records : Records entries served numbering) {number : Nat}
    (inside : number < numbering.cells.size) :
    ∃ place value, entryAt entries place = some value ∧
      rank entries place = number ∧
      numbering.cells[number]? = some (cellOf entries number value) := by
  rw [records.size] at inside
  rcases exists_place_of_lt_rank inside with ⟨place, value, _, entry, rfl⟩
  exact ⟨place, value, entry, rfl, records.cell place value entry⟩

/--
The step of attaching: the entry at the place of a child becomes this child.
The places of its own children lie behind everything read.
-/
theorem attach
    (records : Records entries served numbering) {side : Side}
    (entry : Option α)
    (isPlace : entries.length = childPlace parent side)
    (isServed : parent < served) :
    Records (entries ++ [entry]) served
      (numbering.attach parent side entry) := by
  cases entry with
  | none => exact records.concat_none
  | some value =>
      have bounds := le_two_mul_of_childPlace isPlace
      have served_le := records.served_le
      have size := records.size
      have sizeIs : (numbering.attach parent side (some value)).cells.size =
          numbering.cells.size + 1 := by
        simp [Numbering.attach]
      have lastEntry :
          entryAt (entries ++ [some value]) entries.length = some value := by
        rw [entryAt_concat, if_pos rfl]
      have lastRank :
          rank (entries ++ [some value]) entries.length =
            numbering.cells.size := by
        rw [rank_append_left entries _ (Nat.le_refl _), size]
      refine ⟨?_, ?_, ?_, ?_, ?_⟩
      · rw [List.length_append, List.length_singleton,
          rank_succ_of_some lastEntry, lastRank, sizeIs]
      · intro place placeValue placeEntry
        simp only [Numbering.attach, Array.getElem?_push, Array.size_modify]
        by_cases isLast : place = entries.length
        · subst isLast
          rw [lastEntry] at placeEntry
          rw [if_pos lastRank, lastRank, ← Option.some.inj placeEntry]
          have absent : ∀ child, entries.length < child →
              numberAt (entries ++ [some value]) child = none := by
            intro child behind
            rw [numberAt,
              entryAt_of_length_le (by simpa [Nat.succ_le_iff] using behind)]
            rfl
          rw [cellOf, absent _ (by simp only [childPlace]; omega),
            absent _ (by simp only [childPlace]; omega)]
          rfl
        · rw [entryAt_concat, if_neg isLast] at placeEntry
          have inside := lt_length_of_entryAt placeEntry
          have found := records.cell place placeValue placeEntry
          have isOld := (Array.getElem?_eq_some_iff.mp found).1
          rw [rank_append_left entries _ (Nat.le_of_lt inside),
            if_neg (Nat.ne_of_lt isOld), Array.getElem?_modify, found,
            cellOf_concat entries value isPlace]
          split_ifs
          · rw [size]
            rfl
          · rfl
      · intro place placeValue placeEntry
        by_cases isLast : place = entries.length
        · subst isLast
          rw [lastRank]
          omega
        · rw [entryAt_concat, if_neg isLast] at placeEntry
          rw [rank_append_left entries _
            (Nat.le_of_lt (lt_length_of_entryAt placeEntry))]
          exact records.attached place placeValue placeEntry
      · omega
      · have room :
            numbering.cells.size + 1 - served =
              (numbering.cells.size - served) + 1 := by
          omega
        rw [sizeIs, room, List.range'_1_concat, Nat.add_sub_cancel' served_le,
          ← records.waiting]
        exact Queue.toList_enqueue numbering.waiting numbering.cells.size

/-- The node that is served next is the first one of which no child was read. -/
theorem dequeue
    (records : Records entries served numbering) {waiting : Queue Nat}
    (next : numbering.waiting.dequeue? = some (parent, waiting)) :
    parent = served ∧
      Records entries (served + 1) { numbering with waiting } := by
  have inLine := Queue.toList_of_dequeue? next
  rw [records.waiting, List.range'_eq_cons_iff] at inLine
  rcases inLine with ⟨isFirst, nonempty, others⟩
  refine ⟨isFirst.symm, records.size, records.cell, records.attached, ?_, ?_⟩
  · exact Nat.lt_of_sub_pos nonempty
  · show waiting.toList =
      List.range' (served + 1) (numbering.cells.size - (served + 1))
    rw [others, ← isFirst, Nat.sub_sub]

theorem served_eq_size
    (records : Records entries served numbering)
    (nobody : numbering.waiting.dequeue? = none) :
    served = numbering.cells.size := by
  have inLine := Queue.dequeue?_eq_none_iff.mp nobody
  rw [records.waiting, List.range'_eq_nil_iff] at inLine
  exact Nat.le_antisymm records.served_le (Nat.le_of_sub_eq_zero inLine)

/--
The run: reading takes entries until there are none, or until all nodes are
served.  What it took is on record.
-/
theorem read
    (records : Records entries served numbering)
    (isTurn : entries.length = 2 * served + 1)
    (more : List (Option α)) :
    ∃ taken served', more = taken ++ (numbering.read more).2 ∧
      Records (entries ++ taken) served' (numbering.read more).1 ∧
      ((numbering.read more).2 = [] ∨
        (entries ++ taken).length =
          2 * (numbering.read more).1.cells.size + 1) := by
  fun_induction Numbering.read numbering more generalizing entries served with
  | case1 numbering =>
      exact ⟨[], served, rfl, by simpa using records, Or.inl rfl⟩
  | case2 numbering last nobody =>
      have allServed := records.served_eq_size nobody
      exact ⟨[], served, rfl, by simpa using records,
        Or.inr (by simp [isTurn, allServed])⟩
  | case3 numbering last parent waiting next =>
      rcases records.dequeue next with ⟨rfl, popped⟩
      have leftPlace : entries.length = childPlace parent .left := isTurn
      exact ⟨[last], parent + 1, rfl,
        popped.attach last leftPlace (Nat.lt_succ_self parent), Or.inl rfl⟩
  | case4 numbering first second rest nobody =>
      have allServed := records.served_eq_size nobody
      exact ⟨[], served, rfl, by simpa using records,
        Or.inr (by simp [isTurn, allServed])⟩
  | case5 numbering first second rest parent waiting next withFirst =>
      rename_i induction
      rcases records.dequeue next with ⟨rfl, popped⟩
      have leftPlace : entries.length = childPlace parent .left := isTurn
      have rightPlace :
          (entries ++ [first]).length = childPlace parent .right := by
        rw [List.length_append, isTurn]
        rfl
      have withLeft := popped.attach first leftPlace (Nat.lt_succ_self parent)
      have withBoth :=
        withLeft.attach second rightPlace (Nat.lt_succ_self parent)
      rcases induction withBoth (by simp [isTurn, Nat.mul_succ]) with
        ⟨taken, served', split, readRecords, stopped⟩
      refine ⟨first :: second :: taken, served', ?_, ?_, ?_⟩
      · exact congrArg (first :: second :: ·) split
      · simpa using readRecords
      · simpa using stopped

end Records

theorem records_root (value : α) : Records [some value] 0 (root value) where
  size := rfl
  cell := by
    intro place placeValue entry
    cases place with
    | zero =>
        rw [← Option.some.inj entry]
        rfl
    | succ place => cases entry
  attached := by
    intro place placeValue entry
    cases place with
    | zero => exact Nat.zero_le _
    | succ place => cases entry
  served_le := Nat.zero_le 1
  waiting := rfl

/-! ## The result for a whole list -/

/-- What a list of entries is read as. -/
inductive Reading (entries : List (Option α)) :
    Except Error (Option (Numbering α)) → Prop where
  /-- There is no value. -/
  | empty (absent : ∀ place, entryAt entries place = none) :
      Reading entries (.ok none)
  /-- All values are on record. -/
  | numbered
      {taken : List (Option α)} {served : Nat} {numbering : Numbering α}
      {value : α}
      (first : entryAt entries 0 = some value)
      (same : ∀ place, entryAt taken place = entryAt entries place)
      (records : Records taken served numbering) :
      Reading entries (.ok (some numbering))
  /--
  The value at the place has no node before it whose child it could be;
  it is the first.
  -/
  | detached {place : Nat} {value : α}
      (entry : entryAt entries place = some value)
      (behind : 2 * rank entries place < place)
      (least :
        ∀ earlier value, earlier < place →
          entryAt entries earlier = some value →
            earlier ≤ 2 * rank entries earlier) :
      Reading entries (.error (.detachedNode place))

theorem reading_detached
    {taken unread : List (Option α)} {offset : Nat}
    (attached : Attached taken)
    (allServed : taken.length = 2 * rank taken taken.length + 1)
    (found : unread.findIdx? Option.isSome = some offset) :
    Reading (taken ++ unread)
      (.error (.detachedNode (taken.length + offset))) := by
  rw [List.findIdx?_eq_some_iff_getElem] at found
  rcases found with ⟨inside, isValue, before⟩
  rcases Option.isSome_iff_exists.mp isValue with ⟨value, valueIs⟩
  have absent :
      ∀ between, taken.length ≤ between → between < taken.length + offset →
        entryAt (taken ++ unread) between = none := by
    intro between notBefore notBehind
    rcases Nat.exists_eq_add_of_le notBefore with ⟨skipped, rfl⟩
    have isNone := before skipped (Nat.lt_of_add_lt_add_left notBehind)
    rw [entryAt_append_right, entryAt, List.getElem?_eq_getElem]
    simpa using isNone
  have sameRank :
      rank (taken ++ unread) (taken.length + offset) =
        rank taken taken.length := by
    rw [rank_eq_of_absent (Nat.le_add_right _ _) absent,
      rank_append_left taken unread (Nat.le_refl _)]
  have entry :
      entryAt (taken ++ unread) (taken.length + offset) = some value := by
    rw [entryAt_append_right, entryAt, List.getElem?_eq_getElem inside, valueIs]
    rfl
  refine .detached entry ?_ ?_
  · omega
  · intro earlier earlierValue isEarlier entry
    rcases Nat.lt_or_ge earlier taken.length with isTaken | notTaken
    · rw [entryAt_append_left unread isTaken] at entry
      rw [rank_append_left taken unread (Nat.le_of_lt isTaken)]
      exact attached earlier earlierValue entry
    · rw [absent earlier notTaken isEarlier] at entry
      cases entry

theorem absent_of_findIdx?_eq_none
    {unread : List (Option α)}
    (noValue : unread.findIdx? Option.isSome = none) :
    ∀ entry ∈ unread, entry = none := by
  intro entry member
  have isNone := List.findIdx?_eq_none_iff.mp noValue entry member
  simpa using isNone

/-- Every list of entries is read as it should be. -/
theorem reading_ofEntries? (entries : List (Option α)) :
    Reading entries (ofEntries? entries) := by
  cases entries with
  | nil => exact .empty entryAt_nil
  | cons first rest =>
      cases first with
      | none =>
          simp only [ofEntries?]
          split
          · next noValue =>
              have absent : ∀ entry ∈ none :: rest, entry = none :=
                List.forall_mem_cons.mpr
                  ⟨rfl, absent_of_findIdx?_eq_none noValue⟩
              apply Reading.empty
              intro place
              rw [← List.nil_append (none :: rest),
                entryAt_append_of_absent absent]
              exact entryAt_nil place
          · next offset found =>
              have attached : Attached ([none] : List (Option α)) := by
                intro place value entry
                cases place <;> cases entry
              exact reading_detached attached rfl found
      | some value =>
          rcases (records_root value).read rfl rest with
            ⟨taken, served, split, records, stopped⟩
          have whole :
              some value :: rest =
                ([some value] ++ taken) ++ ((root value).read rest).2 :=
            congrArg (some value :: ·) split
          simp only [ofEntries?]
          split
          · next noValue =>
              refine .numbered (entryAt_cons_zero _ _) (fun place => ?_) records
              rw [whole]
              exact (entryAt_append_of_absent
                (absent_of_findIdx?_eq_none noValue) place).symm
          · next offset found =>
              have allServed :
                  ([some value] ++ taken).length =
                    2 * rank ([some value] ++ taken)
                      ([some value] ++ taken).length + 1 := by
                rcases stopped with nothingLeft | allServed
                · rw [nothingLeft] at found
                  cases found
                · rw [← records.size]
                  exact allServed
              have position :
                  (some value :: rest).length -
                      ((root value).read rest).2.length =
                    ([some value] ++ taken).length := by
                rw [whole, List.length_append, Nat.add_sub_cancel]
              rw [position, whole]
              exact reading_detached records.attached allServed found

end Longest.LevelOrder
