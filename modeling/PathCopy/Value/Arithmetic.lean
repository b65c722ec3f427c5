import PathCopy.Procedure.Expr
import PathCopy.Text.Blank
import PathCopy.Value.Printer
import PathCopy.Value.Read

/-!
Operators on values. An operand is read as a number, and for a sum with a text on either side as a
text; every operator has a result for every operand.
-/

namespace PathCopy

/-- The number that a text spells; a blank text is zero and nonsense is NaN. -/
def textNumber (s : String) : Float :=
  let trimmed := trimWhite s
  if trimmed.isEmpty then 0 else (Number.read? trimmed).getD Number.notANumber

def Scalar.toNumber : Scalar → Float
  | undefined => Number.notANumber
  | null => 0
  | bool b => if b then 1 else 0
  | number x => x
  | text s => textNumber s

/-- The text of a scalar inside a longer text. -/
def Scalar.joined : Scalar → String
  | text s => s
  | s => s.display

/-- The text of a node inside a longer text, where `inner` writes the items of a list. -/
def Body.joined (inner : Value → String) : Body → String
  | date ms => toString ms
  | list items => String.intercalate "," (items.map inner)
  | map _ => "[object Map]"
  | record _ _ => "[object Object]"

namespace Store

/-- The number that a value is taken for; dates count as their milliseconds. -/
def toNumber (st : Store) : Value → Float
  | .scalar s => s.toNumber
  | .node r => match st.body r with
    | .date ms => Float.ofInt ms
    | _ => Number.notANumber

def joinedTo (st : Store) : Nat → Value → String
  | _, .scalar s => s.joined
  | 0, .node _ => ""
  | depth + 1, .node r => (st.body r).joined fun
    | .scalar .undefined | .scalar .null => ""
    | v => st.joinedTo depth v

/-- The text of a value inside a longer text. Undefined and null items of a list are empty. -/
def joined (st : Store) (v : Value) : String := st.joinedTo st.size v

def binary (st : Store) (op : BinaryOp) (left right : Value) : Value :=
  let onNumbers (f : Float → Float → Float) : Value :=
    .number (f (st.toNumber left) (st.toNumber right))
  match op, left, right with
  | .add, .scalar (.text _), _ | .add, _, .scalar (.text _) =>
    .text (st.joined left ++ st.joined right)
  | .add, _, _ => onNumbers (· + ·)
  | .sub, _, _ => onNumbers (· - ·)
  | .mul, _, _ => onNumbers (· * ·)
  | .div, _, _ => onNumbers (· / ·)
  | .rem, _, _ => onNumbers Number.remainder

def unary (st : Store) (op : UnaryOp) (operand : Value) : Value :=
  match op with
  | .neg => .number (-st.toNumber operand)
  | .not => .bool (!operand.isTruthy)

end Store

end PathCopy
