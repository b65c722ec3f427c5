import PathCopy.Number.Numeral
import PathCopy.Value.Table

/-!
Values and the store that holds them. A value is a scalar or a reference to a node of a store;
dates, lists, maps and records are nodes. Two references to one node share it: the node is one, and
a write to it shows through both.
-/

namespace PathCopy

/-- A value without identity. -/
inductive Scalar
  | undefined
  | null
  | bool (value : Bool)
  | number (value : Float)
  | text (value : String)
  deriving Inhabited

/-- A reference to a node of a store. -/
structure Ref where
  index : Nat
  deriving DecidableEq, Inhabited

inductive Value
  | scalar (value : Scalar)
  | node (ref : Ref)
  deriving Inhabited

namespace Value

abbrev undefined : Value := .scalar .undefined

abbrev number (x : Float) : Value := .scalar (.number x)

abbrev bool (b : Bool) : Value := .scalar (.bool b)

abbrev text (s : String) : Value := .scalar (.text s)

/-- Whether a value has an identity of its own. -/
def isNode : Value → Bool
  | .scalar _ => false
  | .node _ => true

end Value

mutual

/-- What the constructor of a class gives to a field: a value that is built anew each time, and that
only the new instance refers to. It may hold instances itself. -/
inductive Template
  | scalar (value : Scalar)
  | date (milliseconds : Int)
  | list (items : List Template)
  | map (entries : List (String × Template))
  | ofClass (cls : Option Class) (fields : List (String × Template))

/-- A class of records. A class with a constructor says which fields a new instance has. -/
structure Class where
  name : String
  defaults : Option (List (String × Template))

end

/-- A record without a class. -/
@[match_pattern] abbrev Template.record (fields : List (String × Template)) : Template :=
  .ofClass none fields

def Class.hasConstructor (c : Class) : Bool := c.defaults.isSome

/-- The contents of a node. A date counts milliseconds. -/
inductive Body
  | date (milliseconds : Int)
  | list (items : List Value)
  | map (entries : Table Value)
  | record (cls : Option Class) (fields : Table Value)

/-- The values that a node holds directly, in order. -/
def Body.children : Body → List Value
  | date _ => []
  | list items => items
  | map entries => entries.values
  | record _ fields => fields.values

/-- A node of a store. Once frozen it is never written again. -/
structure Node where
  frozen : Bool
  body : Body

/-- The nodes made so far, in the order in which they were made. -/
structure Store where
  nodes : Array Node

namespace Store

def empty : Store := ⟨#[]⟩

def size (st : Store) : Nat := st.nodes.size

/-- The node behind a reference; a reference from elsewhere reads as a frozen date. -/
def node (st : Store) (r : Ref) : Node := st.nodes.getD r.index ⟨true, .date 0⟩

def body (st : Store) (r : Ref) : Body := (st.node r).body

def children (st : Store) (r : Ref) : List Value := (st.body r).children

def alloc (st : Store) (body : Body) : Value × Store :=
  (.node ⟨st.nodes.size⟩, ⟨st.nodes.push ⟨false, body⟩⟩)

def setBody (st : Store) (r : Ref) (body : Body) : Store :=
  ⟨st.nodes.modify r.index fun n => { n with body }⟩

theorem node_of_size_le (st : Store) (r : Ref) (h : st.size ≤ r.index) :
    st.node r = ⟨true, .date 0⟩ := by
  unfold node
  exact Array.getD_eq_getD_getElem?.trans (by rw [Array.getElem?_eq_none h]; rfl)

@[simp] theorem size_alloc (st : Store) (body : Body) :
    (st.alloc body).2.size = st.size + 1 := Array.size_push _

/-- A new node holds its contents and every other node is as before. -/
theorem node_alloc (st : Store) (body : Body) (r : Ref) :
    (st.alloc body).2.node r = if r.index = st.size then ⟨false, body⟩ else st.node r := by
  simp only [node, alloc, size, Array.getD_eq_getD_getElem?, Array.getElem?_push]
  split <;> rfl

@[simp] theorem size_setBody (st : Store) (r : Ref) (body : Body) :
    (st.setBody r body).size = st.size := by simp [setBody, size]

/-- Only the contents of the one node change, and not whether it is frozen. -/
theorem node_setBody (st : Store) (r s : Ref) (body : Body) (h : r.index < st.size) :
    (st.setBody r body).node s =
      if s.index = r.index then { st.node r with body } else st.node s := by
  simp only [node, setBody, Array.getD_eq_getD_getElem?, Array.getElem?_modify]
  by_cases hs : r.index = s.index
  · rw [if_pos hs, if_pos hs.symm, ← hs, Array.getElem?_eq_getElem h]
    rfl
  · rw [if_neg hs, if_neg (Ne.symm hs)]

end Store

mutual

/-- Builds the value of a template out of new nodes. -/
def Template.build : Template → Store → Value × Store
  | .scalar s, st => (.scalar s, st)
  | .date ms, st => st.alloc (.date ms)
  | .list items, st =>
    let (vs, st) := Template.buildList items st
    st.alloc (.list vs)
  | .map entries, st =>
    let (es, st) := Template.buildEntries entries st
    st.alloc (.map (Table.ofList es))
  | .ofClass cls fields, st =>
    let (es, st) := Template.buildEntries fields st
    st.alloc (.record cls (Table.ofList es))

def Template.buildList : List Template → Store → List Value × Store
  | [], st => ([], st)
  | t :: ts, st =>
    let (v, st) := t.build st
    let (vs, st) := Template.buildList ts st
    (v :: vs, st)

def Template.buildEntries : List (String × Template) → Store → List (String × Value) × Store
  | [], st => ([], st)
  | (k, t) :: ts, st =>
    let (v, st) := t.build st
    let (vs, st) := Template.buildEntries ts st
    ((k, v) :: vs, st)

end

/-- The fields of a new instance, for a class with a constructor. -/
def Class.construct? (c : Class) (st : Store) : Option (Table Value × Store) :=
  c.defaults.map fun fields =>
    let (es, st) := Template.buildEntries fields st
    (Table.ofList es, st)

inductive Kind
  | undefined | null | boolean | number | string | date | list | map | record
  deriving DecidableEq

def Kind.text : Kind → String
  | undefined => "undefined"
  | null => "null"
  | boolean => "boolean"
  | number => "number"
  | string => "string"
  | date => "date"
  | list => "list"
  | map => "map"
  | record => "record"

def Scalar.kind : Scalar → Kind
  | undefined => .undefined
  | null => .null
  | bool _ => .boolean
  | number _ => .number
  | text _ => .string

def Body.kind : Body → Kind
  | date _ => .date
  | list _ => .list
  | map _ => .map
  | record _ _ => .record

def Store.kind (st : Store) : Value → Kind
  | .scalar s => s.kind
  | .node r => (st.body r).kind

/-- Undefined and null, which have no properties. -/
def Kind.isNullish : Kind → Bool
  | undefined | null => true
  | _ => false

end PathCopy
