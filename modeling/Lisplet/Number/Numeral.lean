import Lisplet.Text.Blank
import Lisplet.Text.Digit
import Lisplet.Number.Binary

/-! Numerals: which texts denote numbers, and which number each denotes. A numeral has an optional
sign, then the word `inf`, `infinity` or `nan` in any case, or decimal digits of any script with
an optional point and an optional exponent. Padding may surround it. -/

namespace Lisplet.Number

/-- A numeral as it is written: the digits, with the power of ten that scales them. -/
inductive Numeral where
  | nan (negative : Bool)
  | infinity (negative : Bool)
  | decimal (negative : Bool) (digits : List Nat) (scale : Int)
deriving Repr, DecidableEq

/-- Whether a minus stands in front, and the text behind the sign. -/
def splitSign : List Char → Bool × List Char
  | '-' :: cs => (true, cs)
  | '+' :: cs => (false, cs)
  | cs => (false, cs)

def signed (negative : Bool) (n : Nat) : Int :=
  if negative then -n else n

/-- The exponent part of a numeral; nothing at all stands for zero. -/
def exponent? : List Char → Option Int
  | [] => some 0
  | c :: cs =>
    if c = 'e' || c = 'E' then
      match Text.spanDigits (splitSign cs).2 with
      | (d :: ds, []) => some (signed (splitSign cs).1 (Text.digitsValue (d :: ds)))
      | _ => none
    else none

/-- The digits behind a point, if there is one, and what follows them. -/
def fraction : List Char → List Nat × List Char
  | '.' :: cs => Text.spanDigits cs
  | cs => ([], cs)

def decimal? (negative : Bool) (cs : List Char) : Option Numeral :=
  let whole := Text.spanDigits cs
  let rest := fraction whole.2
  match whole.1 ++ rest.1 with
  | [] => none
  | digits => (exponent? rest.2).map fun e => .decimal negative digits (e - rest.1.length)

def unpadded? (cs : List Char) : Option Numeral :=
  let (negative, body) := splitSign cs
  match body.map Char.toLower with
  | ['n', 'a', 'n'] => some (.nan negative)
  | ['i', 'n', 'f'] => some (.infinity negative)
  | ['i', 'n', 'f', 'i', 'n', 'i', 't', 'y'] => some (.infinity negative)
  | _ => decimal? negative body

def Numeral.parse? (text : String) : Option Numeral :=
  unpadded? (Text.trimBy Text.isPadding text.toList)

/-- The double nearest to what the numeral denotes. A scale so large or so small that rounding is
settled by the count of digits is not expanded. -/
def Numeral.value : Numeral → Float
  | .nan _ => Float.ofBits 0x7FF8000000000000
  | .infinity negative => Number.infinity negative
  | .decimal negative digits scale =>
    let digits := digits.dropWhile (· = 0)
    let magnitude := digits.length + scale
    if digits.isEmpty || magnitude < -330 then ofMagnitude negative 0
    else if 310 < magnitude then Number.infinity negative
    else nearest negative (Text.digitsValue digits * pow10 scale.toNat) (pow10 (-scale).toNat)

/-- The number that a text denotes, if it is a numeral. -/
def read? (text : String) : Option Float :=
  (Numeral.parse? text).map Numeral.value

/-- Digits of any script with single underscores between them. -/
def spacedDigits? : List Char → Option (List Nat)
  | [] => none
  | [c] => (Text.digit? c).map ([·])
  | c :: '_' :: cs => do return (← Text.digit? c) :: (← spacedDigits? cs)
  | c :: cs => do return (← Text.digit? c) :: (← spacedDigits? cs)

/-- The longest run of digits that an integer may be written with. -/
def maxIntegerDigits : Nat := 4300

/-- The integer that a text denotes: an optional sign and digits, not too many of them. -/
def readInteger? (cs : List Char) : Option Int := do
  let (negative, body) := splitSign cs
  let digits ← spacedDigits? body
  guard (digits.length ≤ maxIntegerDigits)
  return signed negative (Text.digitsValue digits)

end Lisplet.Number
