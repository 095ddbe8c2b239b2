import Lisplet.Reader

/-! Streams of tokens. A stream shows its next token or hands it out, and values are read from it by
descent: a quotation reads the value that it quotes, and a list reads its members until it sees
the parenthesis that closes it. Source text is read from the stream of its tokens. -/

namespace Lisplet

/-- A cursor on tokens: at most one that was looked at, and those not yet touched. -/
structure TokenStream where
  lookahead : Option Token := none
  unread : List Token
deriving Repr, DecidableEq, Inhabited

namespace TokenStream

/-- The tokens that are still to come. -/
def remaining (s : TokenStream) : List Token :=
  s.lookahead.toList ++ s.unread

/-- The next token, which stays in the stream. -/
def peek (s : TokenStream) : Option Token × TokenStream :=
  match s.lookahead, s.unread with
  | some t, _ => (some t, s)
  | none, t :: ts => (some t, ⟨some t, ts⟩)
  | none, [] => (none, s)

/-- The next token, which leaves the stream. -/
def advance (s : TokenStream) : Option Token × TokenStream :=
  match s.lookahead, s.unread with
  | some t, ts => (some t, ⟨none, ts⟩)
  | none, t :: ts => (some t, ⟨none, ts⟩)
  | none, [] => (none, s)

theorem peek_eq (s : TokenStream) :
    s.peek = (s.remaining.head?, ⟨s.remaining.head?, s.remaining.tail⟩) := by
  rcases s with ⟨_ | t, _ | ⟨u, us⟩⟩ <;> rfl

theorem advance_eq (s : TokenStream) :
    s.advance = (s.remaining.head?, ⟨none, s.remaining.tail⟩) := by
  rcases s with ⟨_ | t, _ | ⟨u, us⟩⟩ <;> rfl

@[simp] theorem remaining_peek (s : TokenStream) : s.peek.2.remaining = s.remaining := by
  rcases s with ⟨_ | t, _ | ⟨u, us⟩⟩ <;> rfl

@[simp] theorem peek_fst (s : TokenStream) : s.peek.1 = s.remaining.head? := by
  rw [peek_eq]

@[simp] theorem advance_fst (s : TokenStream) : s.advance.1 = s.remaining.head? := by
  rw [advance_eq]

theorem remaining_of_peek {s seen : TokenStream} {t : Option Token} (h : s.peek = (t, seen)) :
    seen.remaining = s.remaining := by
  rw [← remaining_peek s, h]

theorem remaining_of_advance {s rest : TokenStream} {t : Token} (h : s.advance = (some t, rest)) :
    s.remaining = t :: rest.remaining := by
  rw [advance_eq, Prod.mk.injEq] at h
  obtain ⟨ts, hts⟩ := List.head?_eq_some_iff.1 h.1
  rw [← h.2, hts]
  rfl

theorem length_of_advance {s rest : TokenStream} {t : Token} (h : s.advance = (some t, rest)) :
    rest.remaining.length < s.remaining.length := by
  rw [remaining_of_advance h]
  exact Nat.lt_succ_self _

/-- What was looked at is there to be taken. -/
theorem advance_of_peek {s seen : TokenStream} {t : Token} (h : s.peek = (some t, seen)) :
    seen.advance = (some t, seen.advance.2) := by
  refine Prod.ext ?_ rfl
  rw [advance_fst, remaining_of_peek h, ← peek_fst, h]

/-- What reading from a stream comes to: a value, with fewer tokens to come than before, or a fault,
and where it leaves the stream. -/
inductive Outcome (s : TokenStream) where
  | value (v : Value) (rest : TokenStream) (fewer : rest.remaining.length < s.remaining.length)
  | fault (cause : ReadFault) (rest : TokenStream)

namespace Outcome

variable {s later : TokenStream}

/-- Reading from a later state of the stream. -/
def since (h : later.remaining.length < s.remaining.length) : Outcome later → Outcome s
  | value v rest fewer => value v rest (Nat.lt_trans fewer h)
  | fault cause rest => fault cause rest

def map (f : Value → Value) : Outcome s → Outcome s
  | value v rest fewer => value (f v) rest fewer
  | fault cause rest => fault cause rest

end Outcome

/-- Reads the members of a list and the parenthesis that closes it, after the members `read`, the
latest first. -/
def readMembers (member : (s : TokenStream) → Outcome s) (read : List Value) (s : TokenStream) :
    Outcome s :=
  match h : s.peek with
  | (none, rest) => .fault .unexpectedEnd rest
  | (some t, seen) =>
    if t.kind = .closeParen then
      .value (.list read.reverse) seen.advance.2
        (remaining_of_peek h ▸ length_of_advance (advance_of_peek h))
    else
      match member seen with
      | .fault cause rest => .fault cause rest
      | .value v rest fewer =>
        have hrest : rest.remaining.length < s.remaining.length := remaining_of_peek h ▸ fewer
        (readMembers member (v :: read) rest).since hrest
termination_by s.remaining.length

/-- Reads a value, not deeper than `depth`. -/
def readValue (depth : Nat) (s : TokenStream) : Outcome s :=
  match h : s.advance with
  | (none, rest) => .fault .unexpectedEnd rest
  | (some t, rest) =>
    have fewer := length_of_advance h
    match depth with
    | 0 => .fault .tooDeep rest
    | depth + 1 =>
      match t.kind with
      | .symbol => .value (atom t.text) rest fewer
      | .quote => ((readValue depth rest).map Value.quotation).since fewer
      | .openParen => (readMembers (readValue depth) [] rest).since fewer
      | .closeParen => .fault .unexpectedClose rest
      | .other name => .fault (.unknownToken name t.text) rest

/-- The next value, or none at the end. Only the tokens of the value are taken, or after a fault
those up to it. -/
def read? (bound : Nat) (s : TokenStream) : Except ReadFault (Option Value) × TokenStream :=
  match s.peek with
  | (none, rest) => (.ok none, rest)
  | (some _, seen) =>
    match readValue bound seen with
    | .value v rest _ => (.ok (some v), rest)
    | .fault cause rest => (.error cause, rest)

theorem length_of_read? {bound : Nat} {s rest : TokenStream} {v : Value}
    (h : s.read? bound = (.ok (some v), rest)) :
    rest.remaining.length < s.remaining.length := by
  unfold read? at h
  split at h
  · cases h
  · rename_i seen hseen
    split at h
    · rename_i fewer _
      cases h
      exact remaining_of_peek hseen ▸ fewer
    · cases h

/-- Reads values to the end, after the values `read`, the latest first. -/
def readRest (bound : Nat) (read : List Value) (s : TokenStream) :
    Except ReadFault (List Value) × TokenStream :=
  match h : s.peek with
  | (none, rest) => (.ok read.reverse, rest)
  | (some _, seen) =>
    match readValue bound seen with
    | .value v rest fewer =>
      have : rest.remaining.length < s.remaining.length := remaining_of_peek h ▸ fewer
      readRest bound (v :: read) rest
    | .fault cause rest => (.error cause, rest)
termination_by s.remaining.length

/-- All values to the end. -/
def readAll (bound : Nat) (s : TokenStream) : Except ReadFault (List Value) × TokenStream :=
  s.readRest bound []

end TokenStream

/-- The fault that a reader meets in a text: where it is out of tokens, what ended them, if that was
a fault. -/
def ReadFault.underEnding (ending : Option ReadFault) : ReadFault → ReadFault
  | .unexpectedEnd => ending.getD .unexpectedEnd
  | cause => cause

/-- The first value in a source text, whatever follows it. -/
def parse (bound : Nat) (source : String) : Except ReadFault Value :=
  let text := lexing source
  match (TokenStream.read? bound { unread := text.tokens }).1 with
  | .ok (some v) => .ok v
  | .ok none => .error (ReadFault.underEnding text.fault .unexpectedEnd)
  | .error cause => .error (cause.underEnding text.fault)

/-- All values in a source text. -/
def parseAll (bound : Nat) (source : String) : Except ReadFault (List Value) :=
  let text := lexing source
  match (TokenStream.readAll bound { unread := text.tokens }).1, text.fault with
  | .ok values, none => .ok values
  | .ok _, some cause => .error cause
  | .error cause, ending => .error (cause.underEnding ending)

end Lisplet
