import Mathlib.Algebra.Group.Nat.Even
import Mathlib.Data.List.Basic

/-!
# Documents as event streams

A reader of a structured document reports it as a stream of events: a scalar is one
event, a sequence and a mapping are bracketed by two.  The children of a mapping are
its keys and values in turn.
-/

namespace Nutcracker.Lib

variable {α : Type*}

inductive NodeEvent (α : Type*) where
  | streamStart
  | streamEnd
  | documentStart
  | documentEnd
  | mappingStart
  | mappingEnd
  | sequenceStart
  | sequenceEnd
  | scalar (text : α)
  deriving DecidableEq, Repr

inductive Node (α : Type*) where
  | scalar (text : α)
  | sequence (items : List (Node α))
  | mapping (children : List (Node α))

namespace Node

mutual

/-- The events of a node. -/
def events : Node α → List (NodeEvent α)
  | .scalar text => [.scalar text]
  | .sequence items => .sequenceStart :: (eventsAll items ++ [.sequenceEnd])
  | .mapping children => .mappingStart :: (eventsAll children ++ [.mappingEnd])

def eventsAll : List (Node α) → List (NodeEvent α)
  | [] => []
  | node :: nodes => events node ++ eventsAll nodes

end

mutual

/-- Every mapping has as many values as keys, and every scalar is one of those allowed. -/
def Proper (allowed : α → Prop) : Node α → Prop
  | .scalar text => allowed text
  | .sequence items => ProperAll allowed items
  | .mapping children => Even children.length ∧ ProperAll allowed children

def ProperAll (allowed : α → Prop) : List (Node α) → Prop
  | [] => True
  | node :: nodes => Proper allowed node ∧ ProperAll allowed nodes

end

/-- The stream of one document. -/
def stream (root : Node α) : List (NodeEvent α) :=
  .streamStart :: .documentStart :: (root.events ++ [.documentEnd, .streamEnd])

@[simp]
theorem events_scalar (text : α) : (scalar text).events = [.scalar text] := by
  rw [events]

@[simp]
theorem events_sequence (items : List (Node α)) :
    (sequence items).events = .sequenceStart :: (eventsAll items ++ [.sequenceEnd]) := by
  rw [events]

@[simp]
theorem events_mapping (children : List (Node α)) :
    (mapping children).events = .mappingStart :: (eventsAll children ++ [.mappingEnd]) := by
  rw [events]

@[simp]
theorem eventsAll_nil : eventsAll ([] : List (Node α)) = [] := by
  rw [eventsAll]

@[simp]
theorem eventsAll_cons (node : Node α) (nodes : List (Node α)) :
    eventsAll (node :: nodes) = node.events ++ eventsAll nodes := by
  rw [eventsAll]

mutual

/-- The end of the stream is no event of a node. -/
theorem streamEnd_notMem_events : ∀ node : Node α, .streamEnd ∉ node.events
  | .scalar text => by simp
  | .sequence items => by simpa using streamEnd_notMem_eventsAll items
  | .mapping children => by simpa using streamEnd_notMem_eventsAll children

theorem streamEnd_notMem_eventsAll : ∀ nodes : List (Node α), .streamEnd ∉ eventsAll nodes
  | [] => by simp
  | node :: nodes => by
    simpa using ⟨streamEnd_notMem_events node, streamEnd_notMem_eventsAll nodes⟩

end

@[simp]
theorem eventsAll_scalars (texts : List α) :
    eventsAll (texts.map scalar) = texts.map .scalar := by
  induction texts with
  | nil => simp
  | cons text texts ih => simp [ih]

/-- Keys and values in turn. -/
def entries (pairs : List (Node α × Node α)) : List (Node α) :=
  pairs.flatMap fun pair => [pair.1, pair.2]

@[simp]
theorem entries_nil : entries ([] : List (Node α × Node α)) = [] :=
  rfl

@[simp]
theorem entries_cons (pair : Node α × Node α) (pairs : List (Node α × Node α)) :
    entries (pair :: pairs) = pair.1 :: pair.2 :: entries pairs :=
  rfl

theorem entries_injective : Function.Injective (entries (α := α)) := by
  intro pairs
  induction pairs with
  | nil =>
    rintro (_ | ⟨other, others⟩) same
    · rfl
    · cases same
  | cons pair pairs ih =>
    rintro (_ | ⟨other, others⟩) same
    · cases same
    · simp only [entries_cons, List.cons.injEq] at same
      rw [Prod.ext same.1 same.2.1, ih same.2.2]

theorem exists_entries : ∀ {children : List (Node α)}, Even children.length →
    ∃ pairs, children = entries pairs
  | [], _ => ⟨[], rfl⟩
  | [child], even => by simp at even
  | key :: value :: rest, even => by
    obtain ⟨pairs, rfl⟩ := exists_entries (show Even rest.length by
      simpa [Nat.even_add_one] using even)
    exact ⟨(key, value) :: pairs, rfl⟩

end Node

end Nutcracker.Lib
