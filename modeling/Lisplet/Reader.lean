import Lisplet.Number.Numeral
import Lisplet.Token
import Lisplet.Value

/-! Reading: from tokens to values. A machine takes one token at a time and keeps the forms that are
still open, innermost first. A token either opens a form, completes a value, which may in turn
complete quotations around it, or is out of place. Nesting deeper than a bound is refused. -/

namespace Lisplet

/-- A word is a number if it is a numeral without underscores, and otherwise a symbol. -/
def atom (word : String) : Value :=
  if word.toList.contains '_' then .symbol word
  else
    match Number.read? word with
    | some x => .number x
    | none => .symbol word

/-- The form that a quote mark in front of `v` stands for. -/
def Value.quotation (v : Value) : Value :=
  .list [.symbol "quote", v]

namespace Reader

/-- A form that is still open: a quote mark that waits for its value, or a list with its members
so far, the latest first. -/
inductive Pending where
  | quoted
  | items (read : List Value)
deriving Inhabited

/-- What a token leads to: a finished value, or open forms. -/
inductive Progress where
  | done (v : Value)
  | more (pending : List Pending)
deriving Inhabited

/-- Hands a finished value to the innermost open form. -/
def complete (v : Value) : List Pending → Progress
  | [] => .done v
  | .quoted :: ps => complete v.quotation ps
  | .items vs :: ps => .more (.items (v :: vs) :: ps)

/-- Takes in one token inside the open forms `ps`. -/
def accept (bound : Nat) (ps : List Pending) (t : Token) : Except ReadFault Progress :=
  match t.kind, ps with
  | .closeParen, .items vs :: outer => .ok (complete (.list vs.reverse) outer)
  | kind, ps =>
    if bound ≤ ps.length then .error .tooDeep
    else
      match kind with
      | .symbol => .ok (complete (atom t.text) ps)
      | .quote => .ok (.more (.quoted :: ps))
      | .openParen => .ok (.more (.items [] :: ps))
      | .closeParen => .error .unexpectedClose
      | .other name => .error (.unknownToken name t.text)

/-- Reads one value inside open forms, and gives the tokens that were not taken in. -/
def readFrom (bound : Nat) : List Pending → List Token → Except ReadFault Value × List Token
  | _, [] => (.error .unexpectedEnd, [])
  | ps, t :: ts =>
    match accept bound ps t with
    | .ok (.done v) => (.ok v, ts)
    | .ok (.more ps') => readFrom bound ps' ts
    | .error e => (.error e, ts)

/-- Reads values until the tokens end, after the values `read`, the latest first. The first fault
ends reading and is all that is left of it. -/
def readAllFrom (bound : Nat) :
    List Value → List Pending → List Token → Except ReadFault (List Value) × List Token
  | read, [], [] => (.ok read.reverse, [])
  | _, _ :: _, [] => (.error .unexpectedEnd, [])
  | read, ps, t :: ts =>
    match accept bound ps t with
    | .ok (.done v) => readAllFrom bound (v :: read) [] ts
    | .ok (.more ps') => readAllFrom bound read ps' ts
    | .error e => (.error e, ts)

end Reader

end Lisplet
