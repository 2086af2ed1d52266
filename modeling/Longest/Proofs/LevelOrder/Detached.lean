import Longest.Proofs.LevelOrder.RoundTrip
import Mathlib.Order.Bounds.Basic

/-!
# When a level order is no tree

A list of entries is read as a tree unless one of its values is detached: it
stands behind the children of all nodes before it, of which there are two for
every value before it.  The first such value is reported.  This is said in terms
of the entries alone, without the queue of nodes that await their children.
-/

namespace Longest.LevelOrder

open Longest.LevelOrder.Numbering

variable {α : Type} {entries : List (Option α)}

/-- The value at a place can be the child of no node listed before it. -/
structure IsDetached (entries : List (Option α)) (place : Nat) : Prop where
  isValue : ∃ value, entryAt entries place = some value
  behind : 2 * rank entries place < place

theorem attached_iff_not_isDetached :
    Attached entries ↔ ∀ place, ¬ IsDetached entries place := by
  constructor
  · rintro attached place ⟨⟨value, entry⟩, behind⟩
    exact absurd (attached place value entry) (Nat.not_le_of_lt behind)
  · intro noneDetached place value entry
    exact Nat.le_of_not_lt
      fun behind => noneDetached place ⟨⟨value, entry⟩, behind⟩

theorem isLeast_isDetached
    {place : Nat} {value : α} (entry : entryAt entries place = some value)
    (behind : 2 * rank entries place < place)
    (least :
      ∀ earlier value, earlier < place → entryAt entries earlier = some value →
        earlier ≤ 2 * rank entries earlier) :
    IsLeast {place | IsDetached entries place} place := by
  refine ⟨⟨⟨value, entry⟩, behind⟩, ?_⟩
  rintro other ⟨⟨otherValue, otherEntry⟩, otherBehind⟩
  refine Nat.le_of_not_lt fun before => ?_
  exact absurd (least other otherValue before otherEntry)
    (Nat.not_le_of_lt otherBehind)

/--
Either all values are attached and a tree is read, or the first detached
value is reported.
-/
theorem ofEntries?_cases (entries : List (Option α)) :
    (Attached entries ∧ ∃ tree, Tree.ofEntries? entries = .ok tree) ∨
      ∃ place, IsLeast {place | IsDetached entries place} place ∧
        Tree.ofEntries? entries = .error (.detachedNode place) := by
  have reading := reading_ofEntries? entries
  rw [Tree.ofEntries?]
  generalize Numbering.ofEntries? entries = result at reading
  cases reading with
  | empty absent => exact Or.inl ⟨attached_of_absent absent, .empty, rfl⟩
  | @numbered taken served numbering value first same records =>
      exact Or.inl ⟨records.attached.congr same, numbering.toTree, rfl⟩
  | @detached place value entry behind least =>
      exact Or.inr ⟨place, isLeast_isDetached entry behind least, rfl⟩

theorem ofEntries?_eq_error_iff {error : Error} :
    Tree.ofEntries? entries = .error error ↔
      ∃ place, IsLeast {place | IsDetached entries place} place ∧
        error = .detachedNode place := by
  rcases ofEntries?_cases entries with
    ⟨attached, tree, read⟩ | ⟨place, isLeast, reported⟩
  · rw [read]
    constructor
    · intro same
      cases same
    · rintro ⟨place, isLeast, _⟩
      exact absurd isLeast.1 (attached_iff_not_isDetached.mp attached place)
  · rw [reported]
    constructor
    · intro same
      cases same
      exact ⟨place, isLeast, rfl⟩
    · rintro ⟨place', isLeast', rfl⟩
      rw [isLeast.unique isLeast']

theorem exists_ofEntries?_eq_ok_iff :
    (∃ tree, Tree.ofEntries? entries = .ok tree) ↔
      ∀ place, ¬ IsDetached entries place := by
  rw [← attached_iff_not_isDetached]
  constructor
  · rintro ⟨tree, read⟩
    exact (ofEntries?_eq_ok_iff.mp read).1
  · intro attached
    rcases ofEntries?_cases entries with ⟨_, read⟩ | ⟨place, isLeast, _⟩
    · exact read
    · exact absurd isLeast.1 (attached_iff_not_isDetached.mp attached place)

theorem isTreeAt_empty_iff {place : Nat} :
    IsTreeAt entries place (.empty : Tree α) ↔
      entryAt entries place = none := by
  constructor
  · exact fun isTree => isTree.value?_eq.symm
  · exact .absent

theorem some_mem_iff_exists_entryAt {value : α} :
    some value ∈ entries ↔ ∃ place, entryAt entries place = some value := by
  simp only [entryAt, Option.join_eq_some_iff]
  exact List.mem_iff_getElem?

theorem entryAt_eq_none_iff_no_value :
    (∀ place, entryAt entries place = none) ↔
      ∀ value, some value ∉ entries := by
  simp only [some_mem_iff_exists_entryAt, not_exists,
    Option.eq_none_iff_forall_ne_some]
  exact forall_comm

/-- Behind an absent root no place is left for a child. -/
theorem Attached.entryAt_eq_none
    (attached : Attached entries) (noRoot : entryAt entries 0 = none)
    (place : Nat) :
    entryAt entries place = none := by
  cases place with
  | zero => exact noRoot
  | succ place =>
      have noNode : rank entries 1 = 0 := rank_succ_of_none noRoot
      exact entryAt_eq_none_of_exhausted attached (by rw [noNode])
        (Nat.le_add_left 1 place)

theorem ofEntries?_eq_ok_empty_iff :
    Tree.ofEntries? entries = .ok .empty ↔ ∀ value, some value ∉ entries := by
  rw [ofEntries?_eq_ok_iff, isTreeAt_empty_iff, ← entryAt_eq_none_iff_no_value]
  constructor
  · rintro ⟨attached, noRoot⟩
    exact attached.entryAt_eq_none noRoot
  · intro absent
    exact ⟨attached_of_absent absent, absent 0⟩

/--
The outcome of reading, without its queue.  The only error reports a detached
value, and this is the first one; if there is none, a tree is read, which is
empty exactly if there is no value.
-/
theorem ofEntries?_outcome (entries : List (Option α)) :
    (∀ error,
        Tree.ofEntries? entries = .error error ↔
          ∃ place, IsLeast {place | IsDetached entries place} place ∧
            error = .detachedNode place) ∧
      ((∃ tree, Tree.ofEntries? entries = .ok tree) ↔
        ∀ place, ¬ IsDetached entries place) ∧
      (Tree.ofEntries? entries = .ok .empty ↔ ∀ value, some value ∉ entries) :=
  ⟨fun _ => ofEntries?_eq_error_iff, exists_ofEntries?_eq_ok_iff,
    ofEntries?_eq_ok_empty_iff⟩

/--
The last value stands behind all four children of the two nodes before it.
-/
example :
    Tree.ofEntries? [some 1, some 2, none, none, none, some 9] =
      .error (.detachedNode 5) := by
  decide

end Longest.LevelOrder
