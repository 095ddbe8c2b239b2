import Lisplet.Eval.Basic

/-! The primitive operations. Each gets the whole form unevaluated and an evaluator for the
operands that it wants evaluated. The special forms check their shape before they evaluate
anything; the arithmetic operations evaluate all operands from left to right and want a number
from each. -/

namespace Lisplet

/-- An evaluator of expressions in a frame. -/
abbrev Evaluator := FrameId → Value → Eval Value

/-- The product, from one on. -/
def product (xs : List Float) : Float :=
  xs.foldl (· * ·) 1.0

/-- The first number less all later ones; zero if there is none. -/
def difference : List Float → Float
  | [] => 0.0
  | x :: xs => xs.foldl (· - ·) x

/-- Whether all numbers equal the first one. -/
def allEqual : List Float → Bool
  | [] => true
  | x :: xs => xs.all (· == x)

namespace Eval

/-- The number that an operand of an arithmetic operation stands for. -/
def operandNumber (depth : Nat) (op : Builtin) (v : Value) : Eval Float :=
  match v with
  | .number x => pure x
  | .foreign (.integer n) =>
    match Number.ofInt? n with
    | some x => pure x
    | none => throw .tooLarge
  | v => do throw (.notNumber op (← displayed depth v))

/-- Evaluates the operands of an arithmetic operation; each is checked before the next is
evaluated. -/
def operandNumbers (depth : Nat) (ev : Evaluator) (op : Builtin) (f : FrameId)
    (operands : List Value) : Eval (List Float) :=
  operands.mapM fun e => do operandNumber depth op (← ev f e)

/-- Applies an operation to a whole form, head included. -/
def applyBuiltin (depth : Nat) (ev : Evaluator) (f : FrameId) (form : List Value) :
    Builtin → Eval Value
  | .sequence => form.tail.foldlM (fun _ e => ev f e) (.number 0.0)
  | .define =>
    match form with
    | [_, .symbol n, e] => do
      let v ← ev f e
      discard (bindSymbol depth f (.symbol n) v)
      return .unit
    | [_, target, _] => do throw (.misuse (.defineTarget (← inspected depth target)))
    | _ => throw (.misuse .defineLength)
  | .branch =>
    match form with
    | [_, test, conseq, alt] => do if (← ev f test).isTrue then ev f conseq else ev f alt
    | _ => throw (.misuse .branchLength)
  | .lambda =>
    match form with
    | [_, .list formals, body] =>
      if formals.all Value.isSymbol then pure (.procedure formals body f)
      else throw (.misuse .formalsNotSymbols)
    | [_, _, _] => throw (.misuse .formalsNotList)
    | _ => throw (.misuse .lambdaLength)
  | .quote =>
    match form with
    | [_, e] => pure e
    | _ => throw (.misuse .quoteLength)
  | .product => do return .number (product (← operandNumbers depth ev .product f form.tail))
  | .difference => do
    return .number (difference (← operandNumbers depth ev .difference f form.tail))
  | .equality => do return .ofBool (allEqual (← operandNumbers depth ev .equality f form.tail))

end Eval

end Lisplet
