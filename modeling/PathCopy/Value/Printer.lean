import PathCopy.Text.Quoted
import PathCopy.Value.Basic

/-!
Values as text, in two spellings. `Store.display` writes a value the way a program would; with
`Store.outline` every value says what sort it is.
-/

namespace PathCopy

def boolText (b : Bool) : String := if b then "true" else "false"

def commaList (texts : List String) : String := String.intercalate ", " texts

/-- Items between braces, with blanks inside the braces unless they are empty. -/
def braced (texts : List String) : String :=
  if texts.isEmpty then "\x7b\x7d" else "\x7b " ++ commaList texts ++ " \x7d"

def Scalar.display : Scalar → String
  | undefined => "undefined"
  | null => "null"
  | bool b => boolText b
  | number x => Number.keyText x
  | text s => Quoted.encode s

def Scalar.outline : Scalar → String
  | undefined => "Undefined"
  | null => "Null"
  | bool b => "Bool(" ++ boolText b ++ ")"
  | number x => "Number(" ++ Number.text x ++ ")"
  | text s => "Str(" ++ Quoted.encode s ++ ")"

/-- A node as a program would write it, where `inner` writes its children. -/
def Body.display (inner : Value → String) : Body → String
  | date ms => "Date(" ++ toString ms ++ ")"
  | list items => "[" ++ commaList (items.map inner) ++ "]"
  | map entries =>
    "Map " ++ braced (entries.entries.map fun (k, v) => Quoted.encode k ++ " => " ++ inner v)
  | record cls fields =>
    let name := match cls with
      | some c => c.name ++ " "
      | none => ""
    name ++ braced (fields.entries.map fun (k, v) => k ++ ": " ++ inner v)

/-- The entries of a table between braces, with quoted keys. -/
def outlineEntries (inner : Value → String) (t : Table Value) : String :=
  "\x7b" ++ commaList (t.entries.map fun (k, v) => Quoted.encode k ++ ": " ++ inner v) ++ "\x7d"

/-- A node with its sort, where `inner` writes its children. -/
def Body.outline (inner : Value → String) : Body → String
  | date ms => "Date(" ++ toString ms ++ ")"
  | list items => "List([" ++ commaList (items.map inner) ++ "])"
  | map entries => "Map(" ++ outlineEntries inner entries ++ ")"
  | record cls fields =>
    let name := match cls with
      | some c => c.name
      | none => "Record"
    name ++ "(" ++ outlineEntries inner fields ++ ")"

namespace Store

def displayTo (st : Store) : Nat → Value → String
  | _, .scalar s => s.display
  | 0, .node _ => ""
  | depth + 1, .node r => (st.body r).display (st.displayTo depth)

/-- A value as a program would write it. -/
def display (st : Store) (v : Value) : String := st.displayTo st.size v

def outlineTo (st : Store) : Nat → Value → String
  | _, .scalar s => s.outline
  | 0, .node _ => ""
  | depth + 1, .node r => (st.body r).outline (st.outlineTo depth)

/-- A value in which every part says what sort it is. -/
def outline (st : Store) (v : Value) : String := st.outlineTo st.size v

end Store

end PathCopy
