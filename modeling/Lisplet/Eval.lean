import Lisplet.Eval.Builtin

/-! Evaluation. A list is the application of what its head names; the head is a symbol. Symbols
stand for their values, and numbers, operations and procedures for themselves. Evaluation is
bounded in depth: each evaluation inside another has one level less, and the text of a value in an
error message is bounded by the levels left. -/

namespace Lisplet

/-- Applies a value to a whole form. A procedure gets its operands evaluated in the frame of the
caller, and its body runs in a new frame inside the one it was made in. -/
def Eval.apply (depth : Nat) (ev : Evaluator) (f : FrameId) (head : Value) (form : List Value) :
    Eval Value :=
  match head with
  | .builtin b => applyBuiltin depth ev f form b
  | .procedure formals body frame => do
    let args ← form.tail.mapM (ev f)
    ev (← extend depth formals args frame) body
  | v => do throw (.notCallable v (← displayed depth v))

/-- Evaluates an expression in a frame, with evaluations nested at most to the given depth. -/
def eval : Nat → Evaluator
  | 0, _, _ => throw .tooDeep
  | depth + 1, f, e =>
    match e with
    | .list [] => throw .emptyApplication
    | .list (.symbol n :: operands) => do
      Eval.apply depth (eval depth) f (← Eval.lookup f n) (.symbol n :: operands)
    | .list (head :: _) => do throw (.invalidHead head (← Eval.displayed depth head))
    | .symbol n => Eval.lookup f n
    | .foreign (.text s) => throw (.notEvaluable (.text s))
    | .foreign .nothing => throw (.notEvaluable .nothing)
    | v => pure v

end Lisplet
