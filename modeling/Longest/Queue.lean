/-!
# First-in first-out queues

A queue is kept as two lists: items leave from `front` and enter at `back`,
which is turned round whenever the front has run out.  `toList` is the queue as
it would be served, and the lemmas say what each operation does to it.
-/

namespace Longest

/--
Items waiting in line; `back` holds the latest arrivals, the last of them first.
-/
structure Queue (α : Type) where
  front : List α
  back : List α
  deriving Repr

namespace Queue

variable {α : Type}

/-- The queue in which one item waits. -/
def single (item : α) : Queue α :=
  ⟨[item], []⟩

/-- The items in the order in which they are served. -/
def toList (queue : Queue α) : List α :=
  queue.front ++ queue.back.reverse

/-- Lets an item wait behind all others. -/
def enqueue (queue : Queue α) (item : α) : Queue α :=
  { queue with back := item :: queue.back }

/-- Serves the item that has waited longest. -/
def dequeue? (queue : Queue α) : Option (α × Queue α) :=
  match queue.front with
  | item :: front => some (item, { queue with front })
  | [] =>
    match queue.back.reverse with
    | item :: front => some (item, ⟨front, []⟩)
    | [] => none

@[simp]
theorem toList_single (item : α) : (single item).toList = [item] :=
  rfl

@[simp]
theorem toList_enqueue (queue : Queue α) (item : α) :
    (queue.enqueue item).toList = queue.toList ++ [item] := by
  simp [toList, enqueue]

/-- Serving takes the first item away and leaves the others in their order. -/
theorem toList_of_dequeue?
    {queue rest : Queue α} {item : α}
    (served : queue.dequeue? = some (item, rest)) :
    queue.toList = item :: rest.toList := by
  obtain ⟨front, back⟩ := queue
  cases front with
  | cons first front =>
    simp only [dequeue?, Option.some.injEq, Prod.mk.injEq] at served
    obtain ⟨rfl, rfl⟩ := served
    rfl
  | nil =>
    cases turned : back.reverse with
    | nil => simp [dequeue?, turned] at served
    | cons first front =>
      simp only [dequeue?, turned, Option.some.injEq, Prod.mk.injEq] at served
      obtain ⟨rfl, rfl⟩ := served
      simp [toList, turned]

/-- Only from an empty queue nobody is served. -/
theorem dequeue?_eq_none_iff {queue : Queue α} :
    queue.dequeue? = none ↔ queue.toList = [] := by
  obtain ⟨front, back⟩ := queue
  cases front with
  | cons first front => simp [dequeue?, toList]
  | nil => cases turned : back.reverse <;> simp [dequeue?, toList, turned]

end Queue

end Longest
