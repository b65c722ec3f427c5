import PathCopy.Procedure.Name
import PathCopy.Value.Basic

/-!
Scopes. A running procedure has a stack of them, the innermost first; a name means its innermost
binding.
-/

namespace PathCopy

/-- What a name is bound to, and whether it can be assigned. -/
structure Binding where
  value : Value
  assignable : Bool

abbrev Scope : Type := List (Name × Binding)

namespace Scope

def find? (name : Name) : Scope → Option Binding
  | [] => none
  | (n, b) :: rest => if n = name then some b else find? name rest

/-- Binds a name; an older binding of the name in this scope is gone. -/
def put (name : Name) (binding : Binding) : Scope → Scope
  | [] => [(name, binding)]
  | (n, b) :: rest => if n = name then (n, binding) :: rest else (n, b) :: put name binding rest

end Scope

/-- A stack of scopes, the innermost first. -/
abbrev Scopes : Type := List Scope

namespace Scopes

/-- The innermost binding of a name. -/
def find? (name : Name) : Scopes → Option Binding
  | [] => none
  | s :: outer => match s.find? name with
    | some b => some b
    | none => find? name outer

def define (name : Name) (binding : Binding) : Scopes → Scopes
  | [] => []
  | s :: outer => s.put name binding :: outer

/-- Changes the value of the innermost binding of a name. -/
def setValue (name : Name) (v : Value) : Scopes → Scopes
  | [] => []
  | s :: outer => match s.find? name with
    | some b => s.put name { b with value := v } :: outer
    | none => s :: setValue name v outer

def values (ss : Scopes) : List Value := ss.flatMap fun s => s.map fun (_, b) => b.value

end Scopes

end PathCopy
