import Longest.LevelOrder.Entries
import Mathlib.Data.List.Basic
import Mathlib.Tactic.ByContra
import Mathlib.Tactic.SplitIfs

/-!
# Places in a level order

In a level order the children of the node with number `k`, counted from 0 in the
order of the list, are the entries at the places `2 * k + 1` and `2 * k + 2`.
The number of the node at a place is its rank: how many values stand before it.

`IsTreeAt` reads a tree off the entries by this rule, without any queue.  The
rule works if every value has a node before it whose child it can be, which is
what `Attached` says.
-/

namespace Longest.LevelOrder

variable {α : Type}

/-- The entry at a place; beyond the end all entries are absent. -/
def entryAt (entries : List (Option α)) (place : Nat) : Option α :=
  entries[place]?.join

/-- How many values stand before a place. -/
def rank (entries : List (Option α)) (place : Nat) : Nat :=
  (entries.take place).countP Option.isSome

/-- The number of the node at a place, if there is one. -/
def numberAt (entries : List (Option α)) (place : Nat) : Option Nat :=
  (entryAt entries place).map fun _ => rank entries place

/-- No value stands behind the children of all nodes before it. -/
def Attached (entries : List (Option α)) : Prop :=
  ∀ place value, entryAt entries place = some value →
    place ≤ 2 * rank entries place

/-- The tree whose root is the entry at a place. -/
inductive IsTreeAt (entries : List (Option α)) : Nat → Tree α → Prop where
  | absent {place : Nat} (entry : entryAt entries place = none) :
      IsTreeAt entries place .empty
  | present {place : Nat} {value : α} {left right : Tree α}
      (entry : entryAt entries place = some value)
      (isLeft : IsTreeAt entries (2 * rank entries place + 1) left)
      (isRight : IsTreeAt entries (2 * rank entries place + 2) right) :
      IsTreeAt entries place (.node value left right)

/-! ## Entries -/

@[simp]
theorem entryAt_nil (place : Nat) :
    entryAt ([] : List (Option α)) place = none :=
  rfl

@[simp]
theorem entryAt_cons_zero (entry : Option α) (entries : List (Option α)) :
    entryAt (entry :: entries) 0 = entry :=
  rfl

@[simp]
theorem entryAt_cons_succ
    (entry : Option α) (entries : List (Option α)) (place : Nat) :
    entryAt (entry :: entries) (place + 1) = entryAt entries place :=
  rfl

theorem entryAt_of_length_le
    {entries : List (Option α)} {place : Nat}
    (outside : entries.length ≤ place) :
    entryAt entries place = none := by
  rw [entryAt, List.getElem?_eq_none outside]
  rfl

theorem lt_length_of_entryAt
    {entries : List (Option α)} {place : Nat} {value : α}
    (entry : entryAt entries place = some value) :
    place < entries.length := by
  by_contra outside
  rw [entryAt_of_length_le (Nat.le_of_not_lt outside)] at entry
  cases entry

theorem entryAt_append_left
    {entries : List (Option α)} (more : List (Option α)) {place : Nat}
    (inside : place < entries.length) :
    entryAt (entries ++ more) place = entryAt entries place := by
  rw [entryAt, entryAt, List.getElem?_append_left inside]

theorem entryAt_append_right (entries more : List (Option α)) (offset : Nat) :
    entryAt (entries ++ more) (entries.length + offset) =
      entryAt more offset := by
  rw [entryAt, entryAt, List.getElem?_append_right (Nat.le_add_right _ _),
    Nat.add_sub_cancel_left]

/-- Absent entries at the end are as good as none. -/
theorem entryAt_append_of_absent
    {entries more : List (Option α)} (absent : ∀ entry ∈ more, entry = none)
    (place : Nat) :
    entryAt (entries ++ more) place = entryAt entries place := by
  rcases Nat.lt_or_ge place entries.length with inside | outside
  · exact entryAt_append_left more inside
  · rcases Nat.exists_eq_add_of_le outside with ⟨offset, rfl⟩
    rw [entryAt_append_right, entryAt_of_length_le (Nat.le_add_right _ _)]
    cases found : more[offset]? with
    | none => rw [entryAt, found]; rfl
    | some entry =>
        rw [entryAt, found, absent entry (List.mem_of_getElem? found)]
        rfl

/-! ## Ranks -/

@[simp]
theorem rank_zero (entries : List (Option α)) : rank entries 0 = 0 :=
  rfl

theorem rank_succ (entries : List (Option α)) (place : Nat) :
    rank entries (place + 1) =
      rank entries place + if (entryAt entries place).isSome then 1 else 0 := by
  rw [rank, List.take_add_one, List.countP_append, ← rank, entryAt]
  cases found : entries[place]? with
  | none => rfl
  | some entry => cases entry <;> rfl

theorem rank_succ_of_none
    {entries : List (Option α)} {place : Nat}
    (entry : entryAt entries place = none) :
    rank entries (place + 1) = rank entries place := by
  rw [rank_succ, entry]
  rfl

theorem rank_succ_of_some
    {entries : List (Option α)} {place : Nat} {value : α}
    (entry : entryAt entries place = some value) :
    rank entries (place + 1) = rank entries place + 1 := by
  rw [rank_succ, entry]
  rfl

theorem rank_le_of_le
    (entries : List (Option α)) {first second : Nat}
    (ordered : first ≤ second) :
    rank entries first ≤ rank entries second := by
  induction ordered with
  | refl => exact Nat.le_refl _
  | step _ induction =>
      rw [rank_succ]
      exact Nat.le_trans induction (Nat.le_add_right _ _)

theorem rank_lt_of_lt
    {entries : List (Option α)} {first second : Nat} {value : α}
    (entry : entryAt entries first = some value) (before : first < second) :
    rank entries first < rank entries second := by
  have later := rank_le_of_le entries (Nat.succ_le_of_lt before)
  rw [Nat.succ_eq_add_one, rank_succ_of_some entry] at later
  exact later

theorem place_eq_of_rank_eq
    {entries : List (Option α)} {first second : Nat} {value value' : α}
    (entry : entryAt entries first = some value)
    (entry' : entryAt entries second = some value')
    (sameRank : rank entries first = rank entries second) :
    first = second := by
  rcases Nat.lt_trichotomy first second with before | same | behind
  · exact absurd sameRank (Nat.ne_of_lt (rank_lt_of_lt entry before))
  · exact same
  · exact absurd sameRank.symm (Nat.ne_of_lt (rank_lt_of_lt entry' behind))

theorem exists_place_of_lt_rank
    {entries : List (Option α)} {bound number : Nat}
    (smaller : number < rank entries bound) :
    ∃ place value, place < bound ∧ entryAt entries place = some value ∧
      rank entries place = number := by
  induction bound with
  | zero => exact absurd smaller (Nat.not_lt_zero number)
  | succ bound induction =>
      cases entry : entryAt entries bound with
      | none =>
          rw [rank_succ_of_none entry] at smaller
          rcases induction smaller with ⟨place, value, before, found, isNumber⟩
          exact ⟨place, value, Nat.lt_succ_of_lt before, found, isNumber⟩
      | some value =>
          rw [rank_succ_of_some entry] at smaller
          rcases Nat.lt_or_eq_of_le (Nat.le_of_lt_succ smaller) with less | same
          · rcases induction less with ⟨place, value, before, found, isNumber⟩
            exact ⟨place, value, Nat.lt_succ_of_lt before, found, isNumber⟩
          · exact ⟨bound, value, Nat.lt_succ_self bound, entry, same.symm⟩

theorem rank_eq_of_absent
    {entries : List (Option α)} {first place : Nat} (ordered : first ≤ place)
    (absent :
      ∀ between, first ≤ between → between < place →
        entryAt entries between = none) :
    rank entries place = rank entries first := by
  induction ordered with
  | refl => rfl
  | step isLe induction =>
      rw [rank_succ_of_none (absent _ isLe (Nat.lt_succ_self _))]
      exact induction
        fun between isLe' isLt => absent between isLe' (Nat.lt_succ_of_lt isLt)

/-! ## Lists with the same entries -/

section Same

variable {entries entries' : List (Option α)}

theorem rank_congr
    (same : ∀ place, entryAt entries place = entryAt entries' place)
    (place : Nat) :
    rank entries place = rank entries' place := by
  induction place with
  | zero => rfl
  | succ place induction => rw [rank_succ, rank_succ, same place, induction]

theorem Attached.congr
    (attached : Attached entries)
    (same : ∀ place, entryAt entries place = entryAt entries' place) :
    Attached entries' := by
  intro place value entry
  rw [← rank_congr same]
  exact attached place value ((same place).trans entry)

theorem attached_of_absent (absent : ∀ place, entryAt entries place = none) :
    Attached entries := by
  intro place value entry
  rw [absent place] at entry
  cases entry

theorem IsTreeAt.congr
    {place : Nat} {tree : Tree α}
    (isTree : IsTreeAt entries place tree)
    (same : ∀ place, entryAt entries place = entryAt entries' place) :
    IsTreeAt entries' place tree := by
  induction isTree with
  | absent entry =>
      exact .absent ((same _).symm.trans entry)
  | present entry _ _ leftIH rightIH =>
      rw [rank_congr same] at leftIH rightIH
      exact .present ((same _).symm.trans entry) leftIH rightIH

end Same

/-! ## Trees at places -/

theorem IsTreeAt.value?_eq
    {entries : List (Option α)} {place : Nat} {tree : Tree α}
    (isTree : IsTreeAt entries place tree) :
    tree.value? = entryAt entries place := by
  cases isTree with
  | absent entry => exact entry.symm
  | present entry isLeft isRight => exact entry.symm

/-- The entries determine the tree at a place. -/
theorem IsTreeAt.unique
    {entries : List (Option α)} {place : Nat} {tree tree' : Tree α}
    (isTree : IsTreeAt entries place tree)
    (isTree' : IsTreeAt entries place tree') :
    tree = tree' := by
  induction isTree generalizing tree' with
  | absent entry =>
      cases isTree' with
      | absent entry' => rfl
      | present entry' isLeft' isRight' =>
          rw [entry] at entry'
          cases entry'
  | present entry _ _ leftIH rightIH =>
      cases isTree' with
      | absent entry' =>
          rw [entry] at entry'
          cases entry'
      | present entry' isLeft' isRight' =>
          rw [entry] at entry'
          rw [Option.some.inj entry', leftIH isLeft', rightIH isRight']

end Longest.LevelOrder
