/-! Double-precision numbers as exact dyadic rationals. `parts` opens a number into mantissa and
exponent, and `nearest` goes the other way: it rounds any quotient of naturals to the nearest
double, a tie going to the even mantissa. Both work on the bit pattern in exact arithmetic. -/

namespace Lisplet.Number

def pow2 (n : Nat) : Nat := Nat.pow 2 n

def pow10 (n : Nat) : Nat := Nat.pow 10 n

/-- What a double denotes. A finite one is `mantissa * 2 ^ exponent`, with its sign. -/
inductive Parts where
  | nan
  | infinite (negative : Bool)
  | finite (negative : Bool) (mantissa : Nat) (exponent : Int)
deriving Repr, DecidableEq

/-- The exponent of the finest grid, that of the subnormal numbers. -/
def leastExponent : Int := -1074

def parts (x : Float) : Parts :=
  let bits := x.toBits.toNat
  let negative := decide (pow2 63 ≤ bits)
  let biased : Nat := bits / pow2 52 % pow2 11
  let fraction := bits % pow2 52
  if biased = 2047 then
    if fraction = 0 then .infinite negative else .nan
  else if biased = 0 then .finite negative fraction leastExponent
  else .finite negative (pow2 52 + fraction) (leastExponent + biased - 1)

/-- The quotient rounded to a natural number, a half going to the even neighbour. -/
def roundDiv (num den : Nat) : Nat :=
  let q := num / den
  let twice := 2 * (num % den)
  if twice < den then q else if den < twice then q + 1 else q + q % 2

/-- The quotient `num / den` in units of `2 ^ exponent`, again as a quotient. -/
def inUnits (num den : Nat) (exponent : Int) : Nat × Nat :=
  (num * pow2 (-exponent).toNat, den * pow2 exponent.toNat)

/-- The exponent of the grid on which `num / den` has 53 significant bits, or the finest one. -/
def gridExponent (num den : Nat) : Int :=
  let guess := max leastExponent ((num.log2 : Int) - den.log2 - 53)
  let (n, d) := inUnits num den guess
  if n / d < pow2 53 then guess else guess + 1

/-- The bit pattern of infinity, one above the largest finite one. -/
def infinityBits : Nat := 2047 * pow2 52

/-- The bit pattern of the double nearest to `num / den`. Patterns are in the order of the
numbers, so a carry out of the mantissa, even into infinity, needs no case of its own. -/
def nearestBits (num den : Nat) : Nat :=
  if num = 0 then 0
  else
    let exponent := gridExponent num den
    let (n, d) := inUnits num den exponent
    min ((exponent - leastExponent).toNat * pow2 52 + roundDiv n d) infinityBits

/-- The double with a sign and the bit pattern of a magnitude. -/
def ofMagnitude (negative : Bool) (bits : Nat) : Float :=
  Float.ofBits (UInt64.ofNat (if negative then pow2 63 + bits else bits))

def infinity (negative : Bool) : Float :=
  ofMagnitude negative infinityBits

/-- The double nearest to `num / den`, with the given sign; infinite beyond the range. -/
def nearest (negative : Bool) (num den : Nat) : Float :=
  ofMagnitude negative (nearestBits num den)

/-- The integer that a double is, if it is one. -/
def integer? (x : Float) : Option Int :=
  match parts x with
  | .finite negative m e =>
    let num : Nat := m * pow2 e.toNat
    let den : Nat := pow2 (-e).toNat
    let whole : Int := Int.ofNat (num / den)
    if num % den = 0 then some (if negative then -whole else whole) else none
  | _ => none

/-- The double nearest to an integer, unless that is infinite. -/
def ofInt? (n : Int) : Option Float :=
  let bits := nearestBits n.natAbs 1
  if bits < infinityBits then some (ofMagnitude (n < 0) bits) else none

end Lisplet.Number
