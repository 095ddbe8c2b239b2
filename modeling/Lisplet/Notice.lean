import Lisplet.Fault

/-! Notices: what a session tells its log. Each has a level, the part of the program that gives
it, and a wording. -/

namespace Lisplet

inductive Notice.Level where
  | debug
  | warning
deriving Repr, DecidableEq, Inhabited

def Notice.Level.rank : Notice.Level → Nat
  | .debug => 10
  | .warning => 30

def Notice.Level.name : Notice.Level → String
  | .debug => "DEBUG"
  | .warning => "WARNING"

inductive Notice where
  | limitSet (limit : Nat)
  | ready (bindings : Nat)
  | evaluating (e : Value)
  | unreadable (line : String) (cause : ReadFault)
  | failed (line : String) (fault : Fault)
  | finished (failures : Nat)
deriving Inhabited

namespace Notice

def level : Notice → Level
  | unreadable _ _ | failed _ _ => .warning
  | _ => .debug

/-- The part of the program that gives the notice. -/
def origin : Notice → String
  | limitSet _ => "lithp"
  | ready _ | evaluating _ => "lithp.interpreter"
  | _ => "lithp.repl"

def message : Notice → String
  | limitSet limit => "Setting recursion limit to " ++ toString limit
  | ready n => "Global environment ready with " ++ toString n ++ " bindings"
  | evaluating e => "Evaluating " ++ e.inspect
  | unreadable line .tooDeep => "Reading " ++ Text.quoted line ++ " exhausted the stack"
  | unreadable line cause => "Parse error on " ++ Text.quoted line ++ ": " ++ cause.message
  | failed line fault =>
    "Evaluation of " ++ Text.quoted line ++
      if fault.isExhaustion then " exhausted the stack" else " failed: " ++ fault.message
  | finished n => "Input exhausted, " ++ toString n ++ " failed line(s)"

/-- The notice as a line of the log. -/
def logLine (n : Notice) : String :=
  n.level.name ++ " " ++ n.origin ++ ": " ++ n.message ++ "\n"

end Notice

end Lisplet
