import Lisplet.Number.Binary

/-! Values. Code and data are one type: what the reader makes from text is what evaluation
consumes and returns. A procedure refers to the frame it was made in by number, so values are
plain finite data and sharing lives in the store. -/

namespace Lisplet

/-- Frames are known by the order of their creation. -/
abbrev FrameId := Nat

/-- The primitive operations. -/
inductive Builtin where
  | sequence
  | define
  | branch
  | lambda
  | quote
  | product
  | difference
  | equality
deriving Repr, DecidableEq, Inhabited

namespace Builtin

/-- The name under which an operation is bound and shown. -/
def name : Builtin → String
  | sequence => "begin"
  | define => "define"
  | branch => "if"
  | lambda => "lambda"
  | quote => "quote"
  | product => "*"
  | difference => "-"
  | equality => "="

def all : List Builtin :=
  [sequence, define, branch, lambda, quote, product, difference, equality]

def ofName? (n : String) : Option Builtin :=
  all.find? (·.name == n)

end Builtin

/-- Data of the surrounding program. The reader never makes it, but a caller may bind it. -/
inductive Foreign where
  | integer (n : Int)
  | flag (b : Bool)
  | text (s : String)
  | nothing
deriving Repr, DecidableEq, Inhabited

inductive Value where
  | symbol (name : String)
  | number (x : Float)
  | list (items : List Value)
  | builtin (b : Builtin)
  | procedure (formals : List Value) (body : Value) (frame : FrameId)
  | foreign (f : Foreign)
deriving Inhabited

namespace Value

/-- The marker of truth. -/
def yes : Value := .symbol "#t"

/-- The marker of falsehood. -/
def no : Value := .symbol "#f"

/-- The value of forms that are run for their effect. -/
def unit : Value := .symbol ""

/-- Everything but the marker of falsehood counts as true. -/
def isTrue : Value → Bool
  | .symbol n => n ≠ "#f"
  | _ => true

def ofBool (b : Bool) : Value := if b then yes else no

def isSymbol : Value → Bool
  | .symbol _ => true
  | _ => false

/-- Numbers and foreign integers count as numbers, foreign flags do not. -/
def isNumber : Value → Bool
  | .number _ => true
  | .foreign (.integer _) => true
  | _ => false

mutual

/-- The nesting of a value as it is written. An atom or an empty list has depth one. -/
def depth : Value → Nat
  | .list items => depths items + 1
  | .procedure formals _ _ => depths formals + 1
  | _ => 1

def depths : List Value → Nat
  | [] => 0
  | v :: vs => max v.depth (depths vs)

end

theorem depth_le_depths {v : Value} {vs : List Value} (hv : v ∈ vs) : v.depth ≤ depths vs := by
  induction vs with
  | nil => cases hv
  | cons u us ih =>
    rw [depths]
    rcases List.mem_cons.1 hv with rfl | hv
    · exact Nat.le_max_left _ _
    · exact Nat.le_trans (ih hv) (Nat.le_max_right _ _)

/-- The empty list inside `n` more lists. -/
def nest : Nat → Value
  | 0 => .list []
  | n + 1 => .list [nest n]

/-- What a value counts as when quantities are compared. Flags count as zero and one. -/
inductive Quantity where
  | real (x : Float)
  | whole (n : Int)

def quantity? : Value → Option Quantity
  | .number x => some (.real x)
  | .foreign (.integer n) => some (.whole n)
  | .foreign (.flag b) => some (.whole (if b then 1 else 0))
  | _ => none

/-- Quantities are compared exactly, without rounding the integer. -/
def Quantity.same : Quantity → Quantity → Bool
  | .real x, .real y => x == y
  | .whole m, .whole n => m == n
  | .real x, .whole n => Number.integer? x == some n
  | .whole n, .real x => Number.integer? x == some n

/-- Equality of values: symbols and operations by name, quantities by size, lists member by
member. Two procedures are never equal. There is no answer when the lists compared are nested
deeper than the bound. -/
def same? : Nat → Value → Value → Option Bool
  | 0, _, _ => none
  | _ + 1, .symbol a, .symbol b => some (a == b)
  | _ + 1, .builtin a, .builtin b => some (a == b)
  | _ + 1, .foreign (.text a), .foreign (.text b) => some (a == b)
  | _ + 1, .foreign .nothing, .foreign .nothing => some true
  | d + 1, .list xs, .list ys =>
    if xs.length = ys.length then (xs.zip ys).allM fun (x, y) => same? d x y else some false
  | _ + 1, a, b =>
    match a.quantity?, b.quantity? with
    | some p, some q => some (p.same q)
    | _, _ => some false

end Value

end Lisplet
