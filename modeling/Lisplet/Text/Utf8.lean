/-! Decoding of bytes as UTF-8, strictly: overlong forms, surrogates and codes past the last plane
are invalid. The bytes come in blocks, and text is handed on block by block, so what stands before
a block with an invalid byte, or before a character that the end of the bytes cuts off, is still
good text. -/

namespace Lisplet.Text

/-- What bytes decode to: the whole text, or the text that was handed on before the fault. -/
inductive Decoded where
  | complete (text : String)
  | faulty (before : String)
deriving Repr, DecidableEq, Inhabited

/-- A decoder: the text so far, how many bytes the character at hand still needs, the bounds of
the next of them, and the code so far. -/
structure Decoder where
  text : String := ""
  needed : Nat := 0
  low : Nat := 0x80
  high : Nat := 0xBF
  code : Nat := 0

namespace Decoder

/-- The first byte of a character tells its length, and bounds the second byte. -/
def start (text : String) (b : Nat) : Option Decoder :=
  if b < 0x80 then some { text := text.push (Char.ofNat b) }
  else if 0xC2 ≤ b && b ≤ 0xDF then some { text, needed := 1, code := b - 0xC0 }
  else if 0xE0 ≤ b && b ≤ 0xEF then
    some { text, needed := 2, code := b - 0xE0, low := if b = 0xE0 then 0xA0 else 0x80 }
  else if 0xF0 ≤ b && b ≤ 0xF4 then
    some { text, needed := 3, code := b - 0xF0
           low := if b = 0xF0 then 0x90 else 0x80, high := if b = 0xF4 then 0x8F else 0xBF }
  else none

/-- Takes in one byte. A surrogate is refused at its last byte: up to there it counts as a
character that is not complete. -/
def push (d : Decoder) (b : Nat) : Option Decoder :=
  match d.needed with
  | 0 => start d.text b
  | n + 1 =>
    if d.low ≤ b && b ≤ d.high then
      let code := d.code * 64 + (b - 0x80)
      if n ≠ 0 then some { text := d.text, needed := n, code }
      else if 0xD800 ≤ code && code ≤ 0xDFFF then none
      else some { text := d.text.push (Char.ofNat code) }
    else none

/-- Takes in a block of bytes. -/
def pushAll (d : Decoder) (bytes : List UInt8) : Option Decoder :=
  bytes.foldlM (fun d b => d.push b.toNat) d

/-- Takes in blocks up to the first invalid byte. The block that holds it hands on nothing. -/
def run (d : Decoder) : List (List UInt8) → Decoded
  | [] => if d.needed = 0 then .complete d.text else .faulty d.text
  | block :: blocks =>
    match d.pushAll block with
    | some d' => d'.run blocks
    | none => .faulty d.text

end Decoder

/-- Cuts bytes into blocks of a size; the last block may be shorter. -/
def blocks (size : Nat) : List UInt8 → List (List UInt8)
  | [] => []
  | b :: bs => (b :: bs.take (size - 1)) :: blocks size (bs.drop (size - 1))
termination_by bytes => bytes.length
decreasing_by rw [List.length_drop, List.length_cons]; omega

/-- Decodes bytes that are read in blocks of a size. -/
def decodeUtf8 (size : Nat) (bytes : List UInt8) : Decoded :=
  ({} : Decoder).run (blocks size bytes)

end Lisplet.Text
