import Lisplet.TokenStream
import Lisplet.Value.Written

/-! Faults: every way in which reading, evaluating and displaying can fail, with the one wording
of each. A fault that shows a value carries the text that was made of it when the fault arose. -/

namespace Lisplet

/-- A special form, or a binding, that is not built as it has to be. -/
inductive Misuse where
  | defineLength
  | defineTarget (shown : String)
  | bindTarget (shown : String)
  | branchLength
  | lambdaLength
  | formalsNotList
  | formalsNotSymbols
  | quoteLength
deriving Repr, DecidableEq, Inhabited

namespace Misuse

/-- The operation that was misused. -/
def form : Misuse → Builtin
  | defineLength | defineTarget _ | bindTarget _ => .define
  | branchLength => .branch
  | lambdaLength | formalsNotList | formalsNotSymbols => .lambda
  | quoteLength => .quote

def detail : Misuse → String
  | defineLength => "expected (define symbol value)"
  | defineTarget shown => "symbol must be a symbol, got " ++ shown
  | bindTarget shown => "cannot bind " ++ shown ++ ": not a symbol"
  | branchLength => "expected (if test conseq alt)"
  | lambdaLength => "expected (lambda (<params>) expr)"
  | formalsNotList => "params must be a list."
  | formalsNotSymbols => "params must be a list of symbols"
  | quoteLength => "expected (quote expr)"

end Misuse

inductive Fault where
  | unreadable (cause : ReadFault)
  | undefined (name : Value) (shown : String)
  | emptyApplication
  | invalidHead (head : Value) (shown : String)
  | notCallable (value : Value) (shown : String)
  | misuse (cause : Misuse)
  | notNumber (operation : Builtin) (shown : String)
  | notEvaluable (f : Foreign)
  | listAsName
  | tooLarge
  | tooDeep
  | undisplayable (obstacle : Obstacle)
deriving Inhabited

def ReadFault.message : ReadFault → String
  | .unexpectedChar position c =>
    "Unexpected char at " ++ toString position ++ ": " ++ Text.quoted (String.singleton c)
  | .unexpectedEnd => "Unexpected EOF"
  | .unexpectedClose => "Unexpected ')'"
  | .unknownToken kind text => "Unknown token: " ++ kind ++ " " ++ text
  | .tooDeep => "maximum recursion depth exceeded"

/-- What kind of data a foreign value is, in the words of the surrounding program. -/
def Foreign.kind : Foreign → String
  | .integer _ => "int"
  | .flag _ => "bool"
  | .text _ => "str"
  | .nothing => "NoneType"

namespace Fault

/-- What is said after the name of an operation that met something other than a number. -/
def notNumberDetail (shown : String) : String :=
  "all expressions must be numbers, got " ++ shown

/-- Whether the nesting of reading, evaluating or displaying went past its bound. -/
def isExhaustion : Fault → Bool
  | unreadable .tooDeep | tooDeep | undisplayable .tooDeep => true
  | _ => false

/-- Faults that a session reports and survives. The others come from foreign data only. -/
def isReported : Fault → Bool
  | notEvaluable _ | listAsName | tooLarge | undisplayable .tooLarge => false
  | _ => true

def message : Fault → String
  | unreadable cause => cause.message
  | undefined _ shown => "undefined: " ++ shown
  | emptyApplication => "Expected nonempty list"
  | invalidHead _ shown => "Expected symbol as head of list, got " ++ shown
  | notCallable _ shown => "'" ++ shown ++ "' is not callable"
  | misuse cause => "(" ++ cause.form.name ++ "): " ++ cause.detail
  | notNumber operation shown => "(" ++ operation.name ++ "): " ++ notNumberDetail shown
  | notEvaluable f =>
    "Cannot evaluate object of type " ++ f.kind ++ ": " ++ f.inspect
  | listAsName => "unhashable type: 'list'"
  | tooLarge | undisplayable .tooLarge => "int too large to convert to float"
  | tooDeep | undisplayable .tooDeep => "maximum recursion depth exceeded"

end Fault

end Lisplet
