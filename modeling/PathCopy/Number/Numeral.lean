import PathCopy.Number.Shortest

/-!
Numbers as text. `Number.text` is the shortest text that reads back, in positional notation
whatever the size of the number; `Number.keyText` is the same text with the spellings that a key or
a joined string uses for zero, NaN and the infinities. `Number.read?` reads a number.
-/

namespace PathCopy

namespace Decimal

def digitChars (n : Nat) : List Char := Nat.toDigits 10 n

/-- Positional notation, without exponent: zeros fill the places between digits and point. -/
def positional (d : Decimal) : List Char :=
  let digits := digitChars d.digits
  if 0 ≤ d.exponent then digits ++ List.replicate d.exponent.toNat '0'
  else
    let places := (-d.exponent).toNat
    if places < digits.length then
      digits.take (digits.length - places) ++ '.' :: digits.drop (digits.length - places)
    else '0' :: '.' :: List.replicate (places - digits.length) '0' ++ digits

/-- The double nearest to a decimal; ties go to the even mantissa. Far outside the range of doubles
the answer is known without computing the power of ten. -/
def toFloat (d : Decimal) : Float :=
  if d.digits = 0 then 0
  else if d.exponent > 400 then 1.0 / 0.0
  else if (d.digits.log2 + 1 : Int) * 31 / 100 + 1 + d.exponent < -330 then 0
  else if d.exponent < 0 then Float.ofScientific d.digits true (-d.exponent).toNat
  else Float.ofScientific d.digits false d.exponent.toNat

end Decimal

namespace Number

def digitsValue (ds : List Char) : Nat :=
  ds.foldl (fun n c => n * 10 + (c.toNat - '0'.toNat)) 0

/-- The text of a number: the fewest digits that read back, without exponent. -/
def text (x : Float) : String :=
  match Dyadic.ofFloat? x with
  | none => if x.isNaN then "NaN" else if 0 < x then "inf" else "-inf"
  | some d =>
    let sign := if d.negative then ['-'] else []
    let magnitude :=
      if d.mantissa = 0 then ['0'] else (Decimal.shortest d.mantissa d.exponent).positional
    String.ofList (sign ++ magnitude)

/-- The text of a number inside strings and as a key: both zeros are `0`, and the values that are
not finite have names of their own. -/
def keyText (x : Float) : String :=
  if x == 0 then "0"
  else if x.isNaN then "NaN"
  else if x.isFinite then text x
  else if 0 < x then "Infinity"
  else "-Infinity"

def readExponent? : List Char → Option (Int × List Char)
  | m :: rest =>
    if m = 'e' ∨ m = 'E' then
      let (negative, rest) := match rest with
        | '-' :: r => (true, r)
        | '+' :: r => (false, r)
        | r => (false, r)
      let digits := rest.takeWhile Char.isDigit
      if digits.isEmpty then none
      else
        let n : Int := digitsValue digits
        some (if negative then -n else n, rest.dropWhile Char.isDigit)
    else none
  | [] => none

def ofParts (whole fraction : List Char) (exponent : Int) : Decimal :=
  ⟨digitsValue (whole ++ fraction), exponent - fraction.length⟩

/-- An unsigned number: a name of infinity or NaN in any case, or digits with an optional point and
exponent, at least one digit standing before or after the point. -/
def readUnsigned? (cs : List Char) : Option Float :=
  let lower := String.ofList (cs.map Char.toLower)
  if lower == "inf" || lower == "infinity" then some (1.0 / 0.0)
  else if lower == "nan" then some notANumber
  else
    let whole := cs.takeWhile Char.isDigit
    let (fraction, rest) := match cs.dropWhile Char.isDigit with
      | '.' :: r => (r.takeWhile Char.isDigit, r.dropWhile Char.isDigit)
      | r => ([], r)
    if whole.isEmpty && fraction.isEmpty then none
    else match rest with
      | [] => some (ofParts whole fraction 0).toFloat
      | rest => match readExponent? rest with
        | some (exponent, []) => some (ofParts whole fraction exponent).toFloat
        | _ => none

def read? (text : String) : Option Float :=
  match text.toList with
  | '-' :: cs => (readUnsigned? cs).map (- ·)
  | '+' :: cs => readUnsigned? cs
  | cs => readUnsigned? cs

/-- The list index that a key spells: the decimal numeral of a number below `2 ^ 64`, without sign
and without leading zeros. -/
def readIndex? (key : String) : Option Nat :=
  match key.toList with
  | [] => none
  | c :: cs =>
    if c = '0' ∧ cs ≠ [] then none
    else if (c :: cs).all Char.isDigit then
      let n := digitsValue (c :: cs)
      if n < UInt64.size then some n else none
    else none

end Number

end PathCopy
