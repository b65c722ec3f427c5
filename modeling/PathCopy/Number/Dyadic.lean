/-!
Doubles as exact numbers. A finite double is a sign and a natural number times a power of two;
`Dyadic.ofFloat?` reads these off the bits and `Dyadic.toFloat` puts them back. On top of them
stands the exact remainder of a division.
-/

namespace PathCopy

/-- The number `mantissa * 2 ^ exponent`, negated if `negative`. -/
structure Dyadic where
  negative : Bool
  mantissa : Nat
  exponent : Int
  deriving DecidableEq

namespace Dyadic

/-- The value of a finite double; nothing for a NaN or an infinity. -/
def ofFloat? (x : Float) : Option Dyadic :=
  let bits := x.toBits.toNat
  let biased : Nat := bits >>> 52 % 2048
  let fraction : Nat := bits % 1 <<< 52
  if biased = 2047 then none
  else if biased = 0 then some ⟨decide (1 <<< 63 ≤ bits), fraction, -1074⟩
  else some ⟨decide (1 <<< 63 ≤ bits), 1 <<< 52 + fraction, (biased : Int) - 1075⟩

/-- The double with this value, for a mantissa below `2 ^ 53` and an exponent from -1074 on. The
mantissa is shifted up until its leading bit stands in place or the least exponent is reached. -/
def toFloat (d : Dyadic) : Float :=
  let shift := min (52 - d.mantissa.log2) (d.exponent + 1074).toNat
  let mantissa := d.mantissa <<< shift
  let biased := (d.exponent - shift + 1075).toNat
  let magnitude :=
    if mantissa < 1 <<< 52 then mantissa else biased <<< 52 + (mantissa - 1 <<< 52)
  Float.ofBits (UInt64.ofNat (magnitude + if d.negative then 1 <<< 63 else 0))

/-- The remainder of dividing `x` by `y`, towards zero: both are brought to the smaller of the two
exponents, where the remainder is that of naturals, and the sign is that of `x`. -/
def remainder (x y : Dyadic) : Dyadic :=
  let exponent := min x.exponent y.exponent
  let a := x.mantissa <<< (x.exponent - exponent).toNat
  let b := y.mantissa <<< (y.exponent - exponent).toNat
  ⟨x.negative, a % b, exponent⟩

end Dyadic

namespace Number

def notANumber : Float := 0.0 / 0.0

/-- The exact remainder of `x / y` with the sign of `x`. There is none for an infinite `x` or a
zero `y`; an infinite `y` leaves `x` as it is. -/
def remainder (x y : Float) : Float :=
  match Dyadic.ofFloat? x, Dyadic.ofFloat? y with
  | some a, some b => if b.mantissa = 0 then notANumber else (a.remainder b).toFloat
  | some _, none => if y.isNaN then notANumber else x
  | none, _ => notANumber

end Number

end PathCopy
