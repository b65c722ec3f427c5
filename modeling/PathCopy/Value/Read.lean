import PathCopy.Value.Basic

/-!
Reading values: children, properties, keys and truth. A list and a text have a `length` and a map a
`size`; the entries of a map are not its properties.
-/

namespace PathCopy

/-- The key that a value spells: a text is its own key, a finite number its shortest numeral. -/
def Value.key? : Value → Option String
  | .scalar (.text s) => some s
  | .scalar (.number x) => if x.isFinite then some (Number.keyText x) else none
  | _ => none

def Value.isTruthy : Value → Bool
  | .scalar .undefined | .scalar .null => false
  | .scalar (.bool b) => b
  | .scalar (.number x) => !(x == 0) && !x.isNaN
  | .scalar (.text s) => !s.isEmpty
  | .node _ => true

namespace Body

/-- The child of a container under a key. -/
def child? (key : String) : Body → Option Value
  | date _ => none
  | list items => (Number.readIndex? key).bind (items[·]?)
  | map entries => entries.get? key
  | record _ fields => fields.get? key

/-- What a key leads to: a child, or the length of a list. -/
def get? (key : String) : Body → Option Value
  | list items =>
    if key = "length" then some (.number (Float.ofNat items.length))
    else (list items).child? key
  | b => b.child? key

/-- The property of a container; a map has `size` only. -/
def property (key : String) : Body → Value
  | map entries => if key = "size" then .number (Float.ofNat entries.size) else .undefined
  | b => (b.get? key).getD .undefined

end Body

/-- What a key leads to in a scalar: the length of a text. -/
def Scalar.get? (key : String) : Scalar → Option Value
  | text s => if key = "length" then some (.number (Float.ofNat s.length)) else none
  | _ => none

namespace Store

def get? (st : Store) (v : Value) (key : String) : Option Value :=
  match v with
  | .scalar s => s.get? key
  | .node r => (st.body r).get? key

def hasChild (st : Store) (v : Value) (key : String) : Bool :=
  match v with
  | .scalar _ => false
  | .node r => ((st.body r).child? key).isSome

/-- The property of a value under a key, undefined if there is none. -/
def property (st : Store) (v : Value) (key : String) : Value :=
  match v with
  | .scalar s => (s.get? key).getD .undefined
  | .node r => (st.body r).property key

def mapEntries? (st : Store) : Value → Option (Table Value)
  | .scalar _ => none
  | .node r => match st.body r with
    | .map entries => some entries
    | _ => none

/-- The entry of a map under a key, undefined for a value that is no map. -/
def mapEntry (st : Store) (v : Value) (key : String) : Value :=
  ((st.mapEntries? v).bind (·.get? key)).getD .undefined

end Store

end PathCopy
