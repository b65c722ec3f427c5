import PathCopy.Number.Dyadic

/-!
The fewest decimal digits that read back. The reals that round to a double form an interval; among
the decimal grids `10 ^ k` the coarsest one with a point in it is taken, and on that grid the point
next to the double, the upper one if both are equally near.
-/

namespace PathCopy

structure Decimal where
  digits : Nat
  exponent : Int
  deriving DecidableEq

namespace Decimal

/-- A positive number `value / unit` with the ends of the interval of reals that round to it. The
three numerators share the denominator, and the ends belong to the interval if `closed`. -/
structure Rounding where
  low : Nat
  value : Nat
  high : Nat
  unit : Nat
  closed : Bool

/-- The interval of `mantissa * 2 ^ exponent`, measured in steps of `10 ^ k`. In quarters of the
last place the upper end is two away, and so is the lower end unless the mantissa is the smallest
of its binade. -/
def Rounding.onGrid (mantissa : Nat) (exponent k : Int) : Rounding :=
  let scale := Nat.pow 10 (-k).toNat <<< (exponent - 2).toNat
  let below := if mantissa = 1 <<< 52 then 1 else 2
  { low := (4 * mantissa - below) * scale
    value := 4 * mantissa * scale
    high := (4 * mantissa + 2) * scale
    unit := Nat.pow 10 k.toNat <<< (2 - exponent).toNat
    closed := mantissa % 2 == 0 }

def Rounding.holds (r : Rounding) (n : Nat) : Bool :=
  if r.closed then decide (r.low ≤ n * r.unit ∧ n * r.unit ≤ r.high)
  else decide (r.low < n * r.unit ∧ n * r.unit < r.high)

/-- The nearer of the value's two neighbours on the grid, of those that read back. -/
def Rounding.pick? (r : Rounding) : Option Nat :=
  let n := r.value / r.unit
  match r.holds n, r.holds (n + 1) with
  | true, true =>
    if r.value - n * r.unit < (n + 1) * r.unit - r.value then some n else some (n + 1)
  | true, false => some n
  | false, true => some (n + 1)
  | false, false => none

/-- An exponent above the leading decimal digit of `mantissa * 2 ^ exponent`, from
`log 2 < 0.30103`. -/
def topExponent (mantissa : Nat) (exponent : Int) : Int :=
  ((mantissa.log2 + exponent) * 30103).fdiv 100000 + 2

/-- The shortest decimal that reads back as `mantissa * 2 ^ exponent`, for a positive double. -/
def shortest (mantissa : Nat) (exponent : Int) : Decimal :=
  let top := topExponent mantissa exponent
  let found := (List.range 24).findSome? fun (i : Nat) =>
    let k := top - i
    (Rounding.onGrid mantissa exponent k).pick?.map (⟨·, k⟩)
  found.getD ⟨mantissa <<< exponent.toNat * Nat.pow 5 (-exponent).toNat, min exponent 0⟩

end Decimal

end PathCopy
