/-!
# Journal of a computation

Every measured operation of the library tells what it did as a list of events.
An event is a value of the domain; its severity and its wording are functions of
it, so a journal can be compared and counted without looking at any text.

`Logged` pairs a value with the events written while it was
computed, oldest first.
-/

namespace Longest

/-- How prominent an event is. -/
inductive Level where
  | trace
  | debug
  deriving DecidableEq, Repr

/-- The word that stands before a message of this level. -/
def Level.word : Level → String
  | .trace => "TRACE"
  | .debug => "DEBUG"

/-- One thing that a measured operation reports. -/
inductive Event where
  /-- The quadratic table is about to be filled for this many elements. -/
  | tableStarted (elements : Nat)
  /-- The quadratic table gave this length. -/
  | tableLength (length : Nat)
  /-- The memoised search is about to run over this many elements. -/
  | memoStarted (elements : Nat)
  /-- The memoised search gave this length. -/
  | memoLength (length : Nat)
  /-- The patience search gave this length. -/
  | patienceLength (length : Nat)
  /-- A nonempty tree was made from this many level-order entries. -/
  | levelOrder (entries nodes : Nat)
  /-- The recursive diameter. -/
  | diameter (edges : Nat)
  /-- The diameter found with an explicit stack of frames. -/
  | frameDiameter (edges : Nat)
  deriving DecidableEq, Repr

namespace Event

/-- Only the announcements made before the work are of level `trace`. -/
def level : Event → Level
  | .tableStarted _ => .trace
  | .memoStarted _ => .trace
  | _ => .debug

def message : Event → String
  | .tableStarted elements => s!"lis dp: {elements} elements"
  | .tableLength length => s!"lis dp: length {length}"
  | .memoStarted elements => s!"lis memoized: {elements} elements"
  | .memoLength length => s!"lis memoized: length {length}"
  | .patienceLength length => s!"lis patience: length {length}"
  | .levelOrder entries nodes =>
    s!"level order: {entries} entries, {nodes} nodes"
  | .diameter edges => s!"tree diameter: {edges}"
  | .frameDiameter edges => s!"tree diameter (iterative): {edges}"

/-- The line that a journal shows for an event: its level, then its message. -/
def line (event : Event) : String :=
  event.level.word ++ " " ++ event.message

end Event

/-- A value with the events written while it was computed, oldest first. -/
structure Logged (α : Type) where
  value : α
  events : List Event

namespace Logged

variable {α β : Type}

/--
Runs `next` on the value; what `next` writes follows what is already written.
-/
def andThen (first : Logged α) (next : α → Logged β) : Logged β :=
  ⟨(next first.value).value, first.events ++ (next first.value).events⟩

instance : Monad Logged where
  pure value := ⟨value, []⟩
  bind := andThen

/-- Writes one event. -/
def note (event : Event) : Logged Unit :=
  ⟨(), [event]⟩

@[simp]
theorem value_pure (value : α) : (pure value : Logged α).value = value :=
  rfl

@[simp]
theorem events_pure (value : α) : (pure value : Logged α).events = [] :=
  rfl

@[simp]
theorem events_note (event : Event) : (note event).events = [event] :=
  rfl

@[simp]
theorem value_bind (first : Logged α) (next : α → Logged β) :
    (first >>= next).value = (next first.value).value :=
  rfl

@[simp]
theorem events_bind (first : Logged α) (next : α → Logged β) :
    (first >>= next).events = first.events ++ (next first.value).events :=
  rfl

end Logged

end Longest
