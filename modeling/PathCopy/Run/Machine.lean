import PathCopy.Path.Basic
import PathCopy.Run.Error
import PathCopy.Run.Scope

/-!
The state of a running procedure: its scopes, the store, and a journal of its writes. Places are
what can be assigned: a variable, or steps that lead from one to a child. A write to a place counts
every handle that is alive at that moment: those in the scopes, the value that is written, and those
in `held`, which are the values still being computed with and the handles of the caller.
-/

namespace PathCopy

/-- A write that went through: the variable that it started from, the keys that lead from the value
of the variable to the place, and what was done there. The assignment of a variable has no keys. -/
structure Write where
  root : Name
  keys : List String
  effect : Effect
  deriving DecidableEq

/-- The newest write of the journal comes first. -/
structure Machine where
  store : Store
  scopes : Scopes
  writes : List Write

/-- A computation that changes a machine and may fail; the changes made before a failure stay. -/
abbrev Run (α : Type) : Type := EStateM EvalError Machine α

/-- A variable and the steps that lead from its value to a place. -/
structure Place where
  root : Name
  steps : List Step

def Place.keys (p : Place) : List String := p.steps.map Step.text

/-- The machine after a computation, whether it failed or not. -/
def Machine.after {α : Type} : EStateM.Result EvalError Machine α → Machine
  | .ok _ m => m
  | .error _ m => m

namespace Run

def fail {α : Type} (fault : EvalFault) (span : Span) : Run α := throw ⟨fault, span⟩

def ofWrite {α : Type} (span : Span) : Except WriteError α → Run α
  | .ok a => pure a
  | .error e => fail (.ofWrite e) span

def alloc (body : Body) : Run Value := fun m =>
  let (v, store) := m.store.alloc body
  .ok v { m with store }

/-- Runs inside a new scope, which is left however the run ends. -/
def inScope {α : Type} (run : Run α) : Run α := fun m =>
  match run { m with scopes := [] :: m.scopes } with
  | .ok a m => .ok a { m with scopes := m.scopes.tail }
  | .error e m => .error e { m with scopes := m.scopes.tail }

def lookup (names : NameTable) (name : Name) (span : Span) : Run Value := do
  match (← get).scopes.find? name with
  | some b => pure b.value
  | none => fail (.undefinedVariable (names.lookup name)) span

/-- Binds a name in the innermost scope. -/
def define (name : Name) (v : Value) (assignable : Bool) : Run Unit :=
  modify fun m => { m with scopes := m.scopes.define name ⟨v, assignable⟩ }

def assign (names : NameTable) (name : Name) (v : Value) (span : Span) : Run Unit := do
  match (← get).scopes.find? name with
  | none => fail (.undefinedVariable (names.lookup name)) span
  | some b =>
    if b.assignable then
      modify fun m =>
        { m with scopes := m.scopes.setValue name v, writes := ⟨name, [], .assign⟩ :: m.writes }
    else fail (.immutableBinding (names.lookup name)) span

/-- The property of a value; undefined and null have none. -/
def property (v : Value) (key : String) (span : Span) : Run Value := do
  let st := (← get).store
  if (st.kind v).isNullish then fail (.readOfNullish key (st.kind v)) span
  else pure (st.property v key)

/-- The key that a value spells. -/
def key (v : Value) (span : Span) : Run String := do
  match v.key? with
  | some k => pure k
  | none => fail (.invalidKey ((← get).store.kind v)) span

/-- Follows steps as reads. -/
def readSteps (span : Span) (v : Value) : List Step → Run Value
  | [] => pure v
  | .key k :: steps => do readSteps span (← property v k span) steps
  | .entry k :: steps => do readSteps span ((← get).store.mapEntry v k) steps

def readPlace (names : NameTable) (p : Place) (span : Span) : Run Value := do
  readSteps span (← lookup names p.root span) p.steps

def handles (held : List Value) : Run (Array Nat) := do
  let m ← get
  pure (m.store.handles (m.scopes.values ++ held))

/-- The value of a place, for a write in or below it. -/
def reach (names : NameTable) (counts : Array Nat) (root : Name) (steps : List Step)
    (span : Span) : Run Value := do
  let v ← lookup names root span
  ofWrite span ((← get).store.follow counts v steps)

/-- Keeps the store of a write that went through, and enters the write in the journal. -/
def keep (span : Span) (write : Write) (written : Except WriteError Store) : Run Unit := do
  let store ← ofWrite span written
  modify fun m => { m with store, writes := write :: m.writes }

/-- Writes a place: assigns its variable, or sets a key of the container that its steps lead to. -/
def writePlace (names : NameTable) (held : List Value) (p : Place) (v : Value) (span : Span) :
    Run Unit :=
  match p.steps.getLast? with
  | none => assign names p.root v span
  | some (.entry _) => fail .notAPlace span
  | some (.key k) => do
    let counts ← handles (v :: held)
    let container ← reach names counts p.root p.steps.dropLast span
    keep span ⟨p.root, p.keys, .assign⟩ ((← get).store.setKey counts container k v)

/-- The map at a place, for the call of a method on it. -/
def reachMap (names : NameTable) (counts : Array Nat) (p : Place) (method : String) (arity : Nat)
    (span : Span) : Run Value := do
  let v ← reach names counts p.root p.steps span
  let kind := (← get).store.kind v
  if kind = .map then pure v
  else if kind.isNullish then fail (.readOfNullish method kind) span
  else fail (.unknownMethod method kind arity) span

/-- Sets an entry of the map at a place; the map is the result. -/
def mapSet (names : NameTable) (held : List Value) (p : Place) (k : String) (v : Value)
    (span : Span) : Run Value := do
  let counts ← handles (v :: held)
  let map ← reachMap names counts p "set" 2 span
  keep span ⟨p.root, p.keys ++ [k], .mapSet⟩ ((← get).store.mapSet counts map k v)
  pure map

/-- Deletes an entry of the map at a place, and says whether there was one. -/
def mapDelete (names : NameTable) (held : List Value) (p : Place) (k : String) (span : Span) :
    Run Value := do
  let counts ← handles held
  let map ← reachMap names counts p "delete" 1 span
  let (removed, store) ← ofWrite span ((← get).store.mapDelete counts map k)
  modify fun m => { m with store, writes := ⟨p.root, p.keys ++ [k], .mapDelete⟩ :: m.writes }
  pure (.bool removed)

/-- The methods of a value that is not written: `get` and `has` of a map. -/
def method (receiver : Value) (name : String) (args : List Value) (span : Span) : Run Value := do
  let st := (← get).store
  match st.mapEntries? receiver, name, args with
  | some _, "get", [arg] => do
    let k ← key arg span
    pure (st.mapEntry receiver k)
  | some entries, "has", [arg] => do
    let k ← key arg span
    pure (.bool (entries.contains k))
  | _, _, _ =>
    let kind := st.kind receiver
    if kind.isNullish then fail (.readOfNullish name kind) span
    else fail (.unknownMethod name kind args.length) span

end Run

end PathCopy
