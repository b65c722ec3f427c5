import PathCopy.Path.KeyTree
import PathCopy.Value.Read

/-!
Path copying. The copy of a value for a tree of key paths has new nodes exactly where a path passes
through, and shares everything else with the value. The place where a path ends is not copied: its
parent is, and the write replaces what the parent holds there. A map entry that every path through
it deletes is left out of the copy.
-/

namespace PathCopy

/-- A path that does not fit the value: it goes on below a scalar, or through a child that is not
there. The trail holds the keys passed before. -/
inductive CopyWarning
  | pastScalar (trail : List String) (kind : Kind)
  | absentKey (trail : List String) (key : String)
  deriving DecidableEq

def CopyWarning.path : CopyWarning → String
  | pastScalar trail _ => String.intercalate "." trail
  | absentKey trail key =>
    if trail.isEmpty then key else String.intercalate "." trail ++ "." ++ key

def CopyWarning.message (w : CopyWarning) : String :=
  "path `" ++ w.path ++ "` continues " ++
    match w with
    | pastScalar _ kind => "past a " ++ kind.text
    | absentKey _ key => "through absent key `" ++ key ++ "`"

structure Copying where
  store : Store
  warnings : List CopyWarning

namespace Copying

def warn (c : Copying) (w : CopyWarning) : Copying := { c with warnings := c.warnings ++ [w] }

def alloc (c : Copying) (body : Body) : Value × Copying :=
  let (v, store) := c.store.alloc body
  (v, { c with store })

/-- The class and the first fields of a record's copy. A class that is kept starts from what its
constructor gives, and the record's own fields come on top; otherwise the copy is a bare record. -/
def recordBase (c : Copying) (keepClass : Bool) (cls : Option Class) (fields : Table Value) :
    Option Class × Table Value × Copying :=
  let constructed := if keepClass then cls.bind fun k =>
    (k.construct? c.store).map fun (defaults, store) => (k, defaults, store) else none
  match constructed with
  | some (k, defaults, store) => (some k, defaults.insertAll fields.entries, { c with store })
  | none => (none, fields, c)

end Copying

def setItems (items : List Value) (new : List (String × Value)) : List Value :=
  new.foldl (fun items (key, v) =>
    match Number.readIndex? key with
    | some i => items.set i v
    | none => items) items

def eraseKeys (t : Table Value) (keys : List String) : Table Value := keys.foldl Table.erase t

mutual

/-- The copy of a value for the paths of a tree; `trail` holds the keys that lead to it. -/
def KeyTree.copy (keepClass : Bool) (trail : List String) (v : Value) :
    KeyTree → Copying → Value × Copying
  | .node _ .nil, c => (v, c)
  | .node _ branches, c =>
    match v with
    | .scalar s => (v, c.warn (.pastScalar trail s.kind))
    | .node r =>
      match c.store.body r with
      | .date ms => c.alloc (.date ms)
      | .list items =>
        let (new, c) := branches.copyChildren keepClass trail (Body.list items) c
        c.alloc (.list (setItems items new))
      | .map entries =>
        let (new, c) := branches.copyChildren keepClass trail (.map entries) c
        c.alloc (.map ((eraseKeys entries branches.dropped).insertAll new))
      | .record cls fields =>
        let (cls', base, c) := c.recordBase keepClass cls fields
        let (new, c) := branches.copyChildren keepClass trail (.record cls fields) c
        c.alloc (.record cls' (base.insertAll new))

def KeyBranches.copyChildren (keepClass : Bool) (trail : List String) (body : Body) :
    KeyBranches → Copying → List (String × Value) × Copying
  | .nil, c => ([], c)
  | .cons _ (.node _ .nil) rest, c => rest.copyChildren keepClass trail body c
  | .cons key tree rest, c =>
    match body.child? key with
    | none => rest.copyChildren keepClass trail body (c.warn (.absentKey trail key))
    | some w =>
      let (w', c) := tree.copy keepClass (trail ++ [key]) w c
      let (new, c) := rest.copyChildren keepClass trail body c
      ((key, w') :: new, c)

end

/-- The copy of a value for a list of key paths, with the warnings of the walk. A class is kept if
`keepClass` says so and the class has a constructor. -/
def Store.copy (st : Store) (keepClass : Bool) (v : Value) (paths : List KeyPath) :
    Value × Copying :=
  (KeyTree.ofPaths paths).copy keepClass [] v ⟨st, []⟩

end PathCopy
