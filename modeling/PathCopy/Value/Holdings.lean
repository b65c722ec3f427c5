import PathCopy.Value.Freeze
import PathCopy.Value.Write

/-!
Values held under names. Each name is one handle to what it holds. A write starts at a name and goes
through if neither another name nor another place refers to the nodes that it passes or changes; the
value that is written is a handle of its own while the write lasts.
-/

namespace PathCopy

/-- A store and the values that are held by name. -/
structure Holdings where
  store : Store
  held : Table Value

namespace Holdings

def empty : Holdings := ⟨.empty, .empty⟩

/-- The value that a name holds, undefined if it holds none. -/
def get (h : Holdings) (name : String) : Value := (h.held.get? name).getD .undefined

/-- Holds a value under a name, in place of what the name held before. -/
def put (h : Holdings) (name : String) (v : Value) : Holdings :=
  { h with held := h.held.insert name v }

def drop (h : Holdings) (name : String) : Holdings := { h with held := h.held.erase name }

/-- The number of handles to each node, those in `others` included. -/
def handles (h : Holdings) (others : List Value) : Array Nat :=
  h.store.handles (others ++ h.held.values)

/-- The number of handles to the node that a name holds; a scalar has none. -/
def handleCount (h : Holdings) (name : String) : Nat :=
  match h.get name with
  | .scalar _ => 0
  | .node r => (h.handles []).getD r.index 0

def freeze (h : Holdings) (name : String) : Holdings :=
  { h with store := h.store.deepFreeze (h.get name) }

/-- Sets a field or an element of the container that the steps lead to. -/
def setKey (h : Holdings) (name : String) (steps : List Step) (key : String) (new : Value) :
    Except WriteError Holdings := do
  let counts := h.handles [new]
  let container ← h.store.follow counts (h.get name) steps
  let store ← h.store.setKey counts container key new
  .ok { h with store }

/-- Sets an entry of the map that the steps lead to. -/
def mapSet (h : Holdings) (name : String) (steps : List Step) (key : String) (new : Value) :
    Except WriteError Holdings := do
  let counts := h.handles [new]
  let map ← h.store.follow counts (h.get name) steps
  let store ← h.store.mapSet counts map key new
  .ok { h with store }

/-- Removes an entry of the map that the steps lead to, and says whether there was one. -/
def mapDelete (h : Holdings) (name : String) (steps : List Step) (key : String) :
    Except WriteError (Bool × Holdings) := do
  let counts := h.handles []
  let map ← h.store.follow counts (h.get name) steps
  let (removed, store) ← h.store.mapDelete counts map key
  .ok (removed, { h with store })

/-- Replaces what the steps lead to; without steps that is what the name holds. -/
def replace (h : Holdings) (name : String) (steps : List Step) (new : Value) :
    Except WriteError Holdings :=
  match steps.getLast? with
  | none => .ok (h.put name new)
  | some last => do
    let counts := h.handles [new]
    let container ← h.store.follow counts (h.get name) steps.dropLast
    let store ← h.store.replaceChild counts container last new
    .ok { h with store }

end Holdings

end PathCopy
