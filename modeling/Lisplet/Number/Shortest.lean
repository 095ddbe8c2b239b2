import Lisplet.Number.Binary

/-! The shortest decimal that reads back as a given double. A double `m * 2 ^ e` is the answer for
every real in an interval around it. On the grids of 1, 2, ..., 17 digits the two neighbours of
the value are tried: the first grid with a neighbour in the interval wins, the nearer of two, and
of two equally near the even one. -/

namespace Lisplet.Number

/-- The number `digits * 10 ^ scale`. -/
structure Decimal where
  digits : Nat
  scale : Int
deriving Repr, DecidableEq, Inhabited

/-- How many decimal digits stand before the point of `num / den`; zero or less when the number is
below a tenth. -/
def decimalLength (num den : Nat) : Int :=
  if den ≤ num then (Nat.toDigits 10 (num / den)).length
  else 1 - (Nat.toDigits 10 ((den + num - 1) / num - 1)).length

/-- The interval of reals that read as `mantissa * 2 ^ exponent`, in quarters of a unit in the
last place. Below a power of two the neighbours are twice as close. -/
def readingBounds (mantissa : Nat) (exponent : Int) : Nat × Nat :=
  let below := if mantissa = pow2 52 && leastExponent < exponent then 1 else 2
  (4 * mantissa - below, 4 * mantissa + 2)

/-- A neighbour of `mantissa * 2 ^ exponent` on the grid of step `10 ^ scale` that reads back as
it. -/
def onGrid? (mantissa : Nat) (exponent scale : Int) : Option Nat :=
  let (low, high) := readingBounds mantissa exponent
  let quarter := pow2 (exponent - 2).toNat * pow10 (-scale).toNat
  let step := pow2 (2 - exponent).toNat * pow10 scale.toNat
  let value := 4 * mantissa * quarter
  let reads (n : Nat) :=
    if mantissa % 2 = 0 then low * quarter ≤ n * step && n * step ≤ high * quarter
    else low * quarter < n * step && n * step < high * quarter
  let lower := value / step
  match reads lower, reads (lower + 1) with
  | true, true => some (roundDiv value step)
  | true, false => some lower
  | false, true => some (lower + 1)
  | false, false => none

/-- Moves zeros at the end of the digits into the scale. -/
def stripZeros : Nat → Decimal → Decimal
  | 0, d => d
  | fuel + 1, d =>
    if d.digits ≠ 0 && d.digits % 10 = 0 then stripZeros fuel ⟨d.digits / 10, d.scale + 1⟩ else d

/-- The shortest decimal that reads back as `mantissa * 2 ^ exponent`, for a positive mantissa. -/
def shortest (mantissa : Nat) (exponent : Int) : Decimal :=
  let length := decimalLength (mantissa * pow2 exponent.toNat) (pow2 (-exponent).toNat)
  let found := (List.range 17).findSome? fun (n : Nat) =>
    let scale := length - n - 1
    (onGrid? mantissa exponent scale).map fun digits => ⟨digits, scale⟩
  stripZeros 17 (found.getD default)

end Lisplet.Number
