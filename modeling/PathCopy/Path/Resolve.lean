import PathCopy.Path.Basic
import PathCopy.Value.Read

/-!
From write paths to key paths: the argument of a call supplies the keys that the text left open.
-/

namespace PathCopy

inductive ArgumentError
  | expectedKey (found : Kind)
  | expectedRecord (field : String) (found : Kind)
  | missingField (field : String)
  | fieldNotKey (field : String) (found : Kind)
  deriving DecidableEq

def ArgumentError.message : ArgumentError → String
  | expectedKey found =>
    "the argument is used as a key and must be a string or number, found " ++ found.text
  | expectedRecord field found =>
    "`%" ++ field ++ "` needs a record or map argument, found " ++ found.text
  | missingField field => "the argument has no field `" ++ field ++ "`"
  | fieldNotKey field found =>
    "argument field `" ++ field ++ "` is used as a key and must be a string or number, found "
      ++ found.text

namespace Store

def fields? (st : Store) : Value → Option (Table Value)
  | .scalar _ => none
  | .node r => match st.body r with
    | .map entries => some entries
    | .record _ fields => some fields
    | _ => none

end Store

def Segment.resolve (st : Store) (arg : Value) : Segment → Except ArgumentError String
  | key text => .ok text
  | whole => match arg.key? with
    | some k => .ok k
    | none => .error (.expectedKey (st.kind arg))
  | named field => match st.fields? arg with
    | none => .error (.expectedRecord field (st.kind arg))
    | some fields => match fields.get? field with
      | none => .error (.missingField field)
      | some v => match v.key? with
        | some k => .ok k
        | none => .error (.fieldNotKey field (st.kind v))

def WritePath.resolve (st : Store) (arg : Value) (p : WritePath) :
    Except ArgumentError KeyPath := do
  let keys ← p.segments.mapM (Segment.resolve st arg)
  .ok ⟨keys, p.effect⟩

/-- The key paths of a procedure under an argument; a call without one passes undefined. -/
def resolvePaths (st : Store) (arg : Option Value) (paths : List WritePath) :
    Except ArgumentError (List KeyPath) :=
  paths.mapM (WritePath.resolve st (arg.getD .undefined))

end PathCopy
