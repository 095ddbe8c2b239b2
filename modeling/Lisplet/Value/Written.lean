import Lisplet.Text.Quoted
import Lisplet.Number.Written
import Lisplet.Value

/-! Values as text, in two forms. The display text of a value is what a session prints, and for
data made of symbols, numbers and lists it reads back. The inspection text shows the structure of
a value, and stands in notices, in some error messages and in the text of a frame. -/

namespace Lisplet

/-- What can keep a value from being written. -/
inductive Obstacle where
  | tooDeep
  | tooLarge
deriving Repr, DecidableEq, Inhabited

def Foreign.inspect : Foreign → String
  | .integer n => toString n
  | .flag b => if b then "True" else "False"
  | .text s => Text.quoted s
  | .nothing => "None"

namespace Value

/-- The text of a value that is named by a text of its own. -/
def ownText? : Value → Option String
  | .symbol n => some n
  | .foreign (.text s) => some s
  | _ => none

mutual

/-- The inspection text. -/
def inspect : Value → String
  | .symbol n => "Symbol(name=" ++ Text.quoted n ++ ")"
  | .number x => Number.literal x
  | .list items => "[" ++ ", ".intercalate (inspectAll items) ++ "]"
  | .builtin b => "<builtin " ++ b.name ++ ">"
  | .procedure formals _ _ => "<procedure (" ++ " ".intercalate (labels formals) ++ ")>"
  | .foreign f => f.inspect

def inspectAll : List Value → List String
  | [] => []
  | v :: vs => v.inspect :: inspectAll vs

/-- Each value by its own text, or else by its inspection text. -/
def labels : List Value → List String
  | [] => []
  | v :: vs => v.ownText?.getD v.inspect :: labels vs

end

/-- A value by its own text, or else by its inspection text. -/
def label (v : Value) : String :=
  v.ownText?.getD v.inspect

mutual

/-- The display text. -/
def text : Value → String
  | .symbol n => n
  | .number x => Number.text x
  | .list items => "(" ++ " ".intercalate (texts items) ++ ")"
  | .builtin b => inspect (.builtin b)
  | .procedure formals body frame => inspect (.procedure formals body frame)
  | .foreign (.integer n) => toString n
  | .foreign (.flag b) => if b then "1" else "0"
  | .foreign (.text s) => s
  | .foreign .nothing => "None"

def texts : List Value → List String
  | [] => []
  | v :: vs => v.text :: texts vs

end

/-- The first thing, from left to right, that keeps a value from being displayed under a bound on
nesting. A foreign integer is displayed only if some number is near it. -/
def obstacle? : Nat → Value → Option Obstacle
  | 0, _ => some .tooDeep
  | d + 1, .list items => items.findSome? (obstacle? d)
  | d + 1, .procedure formals _ _ => if depths formals ≤ d then none else some .tooDeep
  | _ + 1, .foreign (.integer n) => if (Number.ofInt? n).isSome then none else some .tooLarge
  | _ + 1, _ => none

/-- The display text, if nothing stands in the way. -/
def display (bound : Nat) (v : Value) : Except Obstacle String :=
  match v.obstacle? bound with
  | none => .ok v.text
  | some o => .error o

end Value

end Lisplet
