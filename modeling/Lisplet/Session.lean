import Lisplet.Eval

/-! Sessions. A session is a store whose first frame is global and binds the operations and
constants. Source text is read and evaluated one expression at a time, so a fault in the text
shows only after everything before it has been evaluated. -/

namespace Lisplet

/-- The circle constant and the two markers of truth, which stand for themselves. -/
def constants : Bindings :=
  [("pi", .number 3.141592653589793), ("#t", .yes), ("#f", .no)]

/-- What every session starts with. -/
def initialBindings : Bindings :=
  constants ++ Builtin.all.map fun b => (b.name, .builtin b)

/-- Binds the constants and operations in a frame. -/
def Store.register (s : Store) (f : FrameId) : Store :=
  s.defineAll f initialBindings

namespace Session

/-- The frame in which source text is evaluated. -/
def globalFrame : FrameId := 0

/-- A fresh session. -/
def start : Store :=
  (Store.push {} none).register globalFrame

/-- Where a text ends: with what came of it, or with the fault that ended its tokens. -/
def conclude {α : Type} : Option ReadFault → α → Eval α
  | none, a => pure a
  | some cause, _ => throw (.unreadable cause)

@[simp] theorem conclude_none {α : Type} (a : α) : conclude none a = pure a := rfl

/-- Evaluates what the tokens of a text hold, one expression after another, inside open forms and
after the value `last`. -/
def evalTokens (bound : Nat) (ending : Option ReadFault) :
    Value → List Reader.Pending → List Token → Eval Value
  | last, [], [] => conclude ending last
  | _, _ :: _, [] => throw (.unreadable (ReadFault.underEnding ending .unexpectedEnd))
  | last, ps, t :: ts =>
    match Reader.accept bound ps t with
    | .error e => throw (.unreadable e)
    | .ok (.more ps') => evalTokens bound ending last ps' ts
    | .ok (.done e) => do evalTokens bound ending (← eval bound globalFrame e) [] ts

/-- Evaluates all expressions of a source text and gives the last value. -/
def evalText (bound : Nat) (source : String) : Eval Value :=
  let text := lexing source
  evalTokens bound text.fault .unit [] text.tokens

/-- Evaluates what a stream supplies, one value after another, and drops what comes of it. -/
def loadStream (bound : Nat) (ending : Option ReadFault) (stream : TokenStream) : Eval Unit :=
  match h : stream.read? bound with
  | (.ok none, _) => conclude ending ()
  | (.ok (some e), rest) => do
    have := TokenStream.length_of_read? h
    let _ ← eval bound globalFrame e
    loadStream bound ending rest
  | (.error cause, _) => throw (.unreadable (cause.underEnding ending))
termination_by stream.remaining.length

/-- Evaluates a source text for its definitions. -/
def load (bound : Nat) (source : String) : Eval Unit :=
  let text := lexing source
  loadStream bound text.fault { unread := text.tokens }

/-- The names bound in the global frame after the initial ones. -/
def definedNames (s : Store) : List String :=
  (s.bindings globalFrame).names.drop initialBindings.length

end Session

end Lisplet
