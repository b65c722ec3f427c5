/-!
Write paths. A path leads from the state to a place that a procedure writes: each segment is a key
of its own, or a key that the argument supplies when the procedure is called.
-/

namespace PathCopy

inductive Segment
  | key (text : String)
  | named (field : String)
  | whole
  deriving DecidableEq

namespace Segment

def text : Segment → String
  | key text => text
  | named field => "%" ++ field
  | whole => "%"

def isFixed : Segment → Bool
  | key _ => true
  | _ => false

end Segment

inductive Effect
  | assign
  | mapSet
  | mapDelete
  deriving DecidableEq

/-- A path as the text of a procedure gives it. -/
structure WritePath where
  segments : List Segment
  effect : Effect
  deriving DecidableEq

namespace WritePath

def hasMarkers (p : WritePath) : Bool := p.segments.any fun s => !s.isFixed

def text (p : WritePath) : String := String.intercalate "." (p.segments.map Segment.text)

end WritePath

/-- A path whose keys are all known. -/
structure KeyPath where
  keys : List String
  effect : Effect
  deriving DecidableEq

def KeyPath.text (p : KeyPath) : String := String.intercalate "." p.keys

end PathCopy
