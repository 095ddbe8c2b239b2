import Lisplet.Notice
import Lisplet.Session

/-! Transcripts: a session that is driven line by line. A line is read completely before any of it
is evaluated; then each value is written, and the first fault is reported and ends the line. What
was bound before stays bound. The transcript lists everything written and every notice, in order.
-/

namespace Lisplet

inductive Event where
  | out (text : String)
  | err (text : String)
  | notice (n : Notice)
deriving Inhabited

/-- How a line ends. A fault that foreign data brings about is not reported and breaks the run
off. -/
inductive LineEnd where
  | passed
  | failed
  | broken (fault : Fault)
deriving Inhabited

structure LineRun where
  events : List Event
  ended : LineEnd
  store : Store
deriving Inhabited

/-- A run over lines: the count of failed lines, or the fault that broke the run off. -/
structure Run where
  events : List Event
  failures : Except Fault Nat
  store : Store

namespace Transcript

def result (text : String) : Event :=
  .out ("Result: " ++ text ++ "\n")

def readReport (line : String) (cause : ReadFault) : List Event :=
  [.notice (.unreadable line cause), .err ("Parse Error: " ++ cause.message ++ "\n")]

def evalReport (line : String) (fault : Fault) : List Event :=
  [.notice (.failed line fault), .err ("Eval Error: " ++ fault.message ++ "\n")]

/-- Evaluates an expression and gives the display text of its value. -/
def evalToText (bound : Nat) (e : Value) : Eval String := do
  Eval.displayed bound (← eval bound Session.globalFrame e)

/-- Evaluates the expressions of a line in order, up to the first fault. -/
def runValues (bound : Nat) (line : String) : List Value → Store → LineRun
  | [], s => ⟨[], .passed, s⟩
  | e :: es, s =>
    match (evalToText bound e).on s with
    | (.ok text, s') =>
      let rest := runValues bound line es s'
      { rest with events := .notice (.evaluating e) :: result text :: rest.events }
    | (.error fault, s') =>
      if fault.isReported then ⟨.notice (.evaluating e) :: evalReport line fault, .failed, s'⟩
      else ⟨[.notice (.evaluating e)], .broken fault, s'⟩

/-- Reads and evaluates one line. -/
def runLine (bound : Nat) (line : String) (s : Store) : LineRun :=
  match parseAll bound line with
  | .error cause => ⟨readReport line cause, .failed, s⟩
  | .ok es => runValues bound line es s

def promptEvents (prompt : String) : List Event :=
  if prompt.isEmpty then [] else [.out prompt]

/-- Runs lines in order, a prompt after each; blank lines are passed over. -/
def feed (bound : Nat) (prompt : String) : List String → Nat → Store → Run
  | [], failures, s => ⟨[], .ok failures, s⟩
  | line :: lines, failures, s =>
    let r := if Text.isAllBlank line then ⟨[], .passed, s⟩ else runLine bound line s
    let continued (failures : Nat) : Run :=
      let rest := feed bound prompt lines failures r.store
      { rest with events := r.events ++ promptEvents prompt ++ rest.events }
    match r.ended with
    | .passed => continued failures
    | .failed => continued (failures + 1)
    | .broken fault => ⟨r.events, .error fault, r.store⟩

/-- Runs lines with a prompt before the first and after each, and gives notice of the end. -/
def runLines (bound : Nat) (prompt : String) (lines : List String) (s : Store) : Run :=
  let r := feed bound prompt lines 0 s
  let closing := match r.failures with
    | .ok n => [.notice (.finished n)]
    | .error _ => []
  { r with events := promptEvents prompt ++ r.events ++ closing }

/-- The notice that a fresh session gives. -/
def readyNotice (s : Store) : Event :=
  .notice (.ready (s.bindings Session.globalFrame).length)

/-- What was written to the output. -/
def outText (es : List Event) : String :=
  String.join (es.map fun | .out t => t | _ => "")

/-- What was written to the error output, notices apart. -/
def errText (es : List Event) : String :=
  String.join (es.map fun | .err t => t | _ => "")

/-- The notices at or above a rank. -/
def notices (rank : Nat) (es : List Event) : List Notice :=
  es.filterMap fun | .notice n => if rank ≤ n.level.rank then some n else none | _ => none

/-- The error output with the notices at or above a rank as lines in between. -/
def errLog (rank : Nat) (es : List Event) : String :=
  String.join (es.map fun
    | .err t => t
    | .notice n => if rank ≤ n.level.rank then n.logLine else ""
    | .out _ => "")

end Transcript

end Lisplet
