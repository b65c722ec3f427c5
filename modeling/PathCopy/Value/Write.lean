import PathCopy.Value.Handles
import PathCopy.Value.Read

/-!
Writes in place. A node may be written, or passed through on the way to a write, only if it is not
frozen and there is one handle to it. The handles are counted by the caller, who knows the roots,
and given as `counts`.
-/

namespace PathCopy

inductive WriteError
  | frozen
  | shared
  | notAContainer (kind : Kind) (key : String)
  | invalidIndex (key : String)
  | indexOutOfRange (index length : Nat)
  | missingChild (key : String)
  | mapProperty (key : String)
  deriving DecidableEq

def WriteError.message : WriteError → String
  | frozen => "node is frozen"
  | shared => "node is shared with another owner"
  | notAContainer kind key => "cannot write `" ++ key ++ "` on a " ++ kind.text
  | invalidIndex key => "`" ++ key ++ "` is not a list index"
  | indexOutOfRange index length =>
    "index " ++ toString index ++ " is out of range for a list of length " ++ toString length
  | missingChild key => "no child `" ++ key ++ "` to write through"
  | mapProperty key => "map entries are written with `set`, not by assigning `" ++ key ++ "`"

/-- One step from a container to a child: to the child under a property key, or to the entry of a
map. -/
inductive Step
  | key (key : String)
  | entry (key : String)
  deriving DecidableEq

def Step.text : Step → String
  | key k => k
  | entry k => k

/-- The contents of a container with the child at a step replaced. -/
def Body.setChild (body : Body) (step : Step) (new : Value) : Body :=
  match step, body with
  | .key key, .record cls fields => .record cls (fields.insert key new)
  | .key key, .list items =>
    match Number.readIndex? key with
    | some i => .list (items.set i new)
    | none => .list items
  | .entry key, .map entries => .map (entries.insert key new)
  | _, body => body

namespace Store

/-- Passes if the node can be written. -/
def claim (st : Store) (counts : Array Nat) (r : Ref) : Except WriteError Unit :=
  if (st.node r).frozen then .error .frozen
  else if 1 < counts.getD r.index 0 then .error .shared
  else .ok ()

def indexOf (key : String) : Except WriteError Nat :=
  match Number.readIndex? key with
  | some i => .ok i
  | none => .error (.invalidIndex key)

/-- The child that a step leads to, for a write in or below it. -/
def child (st : Store) (counts : Array Nat) (v : Value) (step : Step) : Except WriteError Value :=
  match v with
  | .scalar s => .error (.notAContainer s.kind step.text)
  | .node r =>
    match step, st.body r with
    | .key key, .record _ fields => do
      st.claim counts r
      match fields.get? key with
      | some w => .ok w
      | none => .error (.missingChild key)
    | .key key, .list items => do
      let i ← indexOf key
      st.claim counts r
      match items[i]? with
      | some w => .ok w
      | none => .error (.indexOutOfRange i items.length)
    | .key key, .map _ => .error (.mapProperty key)
    | .entry key, .map entries => do
      st.claim counts r
      match entries.get? key with
      | some w => .ok w
      | none => .error (.missingChild key)
    | step, body => .error (.notAContainer body.kind step.text)

/-- The value that a row of steps leads to, for a write in or below it. -/
def follow (st : Store) (counts : Array Nat) (v : Value) : List Step → Except WriteError Value
  | [] => .ok v
  | step :: steps => do st.follow counts (← st.child counts v step) steps

/-- Sets a field of a record or an element of a list; a list grows by one if the index is its
length. -/
def setKey (st : Store) (counts : Array Nat) (v : Value) (key : String) (new : Value) :
    Except WriteError Store :=
  match v with
  | .scalar s => .error (.notAContainer s.kind key)
  | .node r =>
    match st.body r with
    | .record cls fields => do
      st.claim counts r
      .ok (st.setBody r (.record cls (fields.insert key new)))
    | .list items => do
      let i ← indexOf key
      st.claim counts r
      if i < items.length then .ok (st.setBody r (.list (items.set i new)))
      else if i = items.length then .ok (st.setBody r (.list (items ++ [new])))
      else .error (.indexOutOfRange i items.length)
    | .map _ => .error (.mapProperty key)
    | .date _ => .error (.notAContainer .date key)

def mapSet (st : Store) (counts : Array Nat) (v : Value) (key : String) (new : Value) :
    Except WriteError Store :=
  match v with
  | .scalar s => .error (.notAContainer s.kind key)
  | .node r =>
    match st.body r with
    | .map entries => do
      st.claim counts r
      .ok (st.setBody r (.map (entries.insert key new)))
    | body => .error (.notAContainer body.kind key)

/-- Removes an entry of a map, and says whether there was one. -/
def mapDelete (st : Store) (counts : Array Nat) (v : Value) (key : String) :
    Except WriteError (Bool × Store) :=
  match v with
  | .scalar s => .error (.notAContainer s.kind key)
  | .node r =>
    match st.body r with
    | .map entries => do
      st.claim counts r
      .ok (entries.contains key, st.setBody r (.map (entries.erase key)))
    | body => .error (.notAContainer body.kind key)

/-- Replaces the child that a step leads to. -/
def replaceChild (st : Store) (counts : Array Nat) (v : Value) (step : Step) (new : Value) :
    Except WriteError Store := do
  let _ ← st.child counts v step
  match v with
  | .scalar _ => .ok st
  | .node r => .ok (st.setBody r ((st.body r).setChild step new))

end Store

end PathCopy
