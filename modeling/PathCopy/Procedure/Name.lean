/-!
Interned names. A procedure keeps each identifier, property name and string of its source once, in
a `NameTable`, and refers to it by a `Name`. Two names of one table are equal exactly when their
texts are.
-/

namespace PathCopy

/-- A handle to a text of a `NameTable`. -/
structure Name where
  index : Nat
  deriving DecidableEq, Inhabited

/-- The texts interned so far, in the order of their first appearance. -/
structure NameTable where
  texts : Array String

namespace NameTable

/-- The table that every procedure starts from: it holds the empty text. -/
def initial : NameTable := ⟨#[""]⟩

def get? (t : NameTable) (text : String) : Option Name :=
  (t.texts.finIdxOf? text).map fun i => ⟨i⟩

/-- The text behind a handle; the empty text for a handle of another, longer table. -/
def lookup (t : NameTable) (name : Name) : String := t.texts.getD name.index ""

def intern (t : NameTable) (text : String) : Name × NameTable :=
  match t.get? text with
  | some name => (name, t)
  | none => (⟨t.texts.size⟩, ⟨t.texts.push text⟩)

def size (t : NameTable) : Nat := t.texts.size

end NameTable

end PathCopy
