import Lisplet.Number.Shortest

/-! Numbers as text. The literal form of a number has the fewest digits that read back; the
display form writes a whole number as an integer, with all its digits, and any other number
literally. -/

namespace Lisplet.Number

/-- How a decimal is laid out: exponents of the leading digit from `positionalFrom` up to but
without `positionalBelow` are written positionally, others after an `e` with a sign and at least
`exponentWidth` digits. -/
structure Layout where
  positionalFrom : Int
  positionalBelow : Int
  exponentWidth : Nat

/-- Literals are positional from a ten-thousandth up to sixteen digits before the point. -/
def literalLayout : Layout := ⟨-4, 16, 2⟩

def zeros (n : Nat) : String := String.ofList (List.replicate n '0')

def Layout.exponent (l : Layout) (e : Int) : String :=
  let digits := toString e.natAbs
  "e" ++ (if e < 0 then "-" else "+") ++ zeros (l.exponentWidth - digits.length) ++ digits

def Layout.write (l : Layout) (d : Decimal) : String :=
  let cs := Nat.toDigits 10 d.digits
  let lead := d.scale + cs.length - 1
  if l.positionalFrom ≤ lead && lead < l.positionalBelow then
    if lead < 0 then "0." ++ zeros (-lead - 1).toNat ++ String.ofList cs
    else
      let whole := lead.toNat + 1
      if cs.length ≤ whole then String.ofList cs ++ zeros (whole - cs.length) ++ ".0"
      else String.ofList (cs.take whole) ++ "." ++ String.ofList (cs.drop whole)
  else
    let tail := if cs.length ≤ 1 then "" else "." ++ String.ofList (cs.drop 1)
    String.ofList (cs.take 1) ++ tail ++ l.exponent lead

/-- The shortest text that reads back as the number; a point or an exponent is always written. -/
def literal (x : Float) : String :=
  match parts x with
  | .nan => "nan"
  | .infinite negative => if negative then "-inf" else "inf"
  | .finite negative m e =>
    (if negative then "-" else "") ++
      if m = 0 then "0.0" else literalLayout.write (shortest m e)

/-- The display text: an integer for a whole number, else the literal. -/
def text (x : Float) : String :=
  match integer? x with
  | some n => toString n
  | none => literal x

end Lisplet.Number
