import Lisplet.Number.Numeral
import Lisplet.Text.Quoted

/-! Settings that come from environment variables: the level from which notices are shown, a limit
on recursion, and the prompt. Blank variables count as absent, except for the prompt. -/

namespace Lisplet

/-- The environment variables that matter, as they are set. -/
structure Variables where
  logLevel : Option String := none
  recursionLimit : Option String := none
  prompt : Option String := none
deriving Repr, Inhabited

namespace Settings

def logLevelName : String := "LITHP_LOG_LEVEL"
def recursionLimitName : String := "LITHP_RECURSION_LIMIT"
def promptName : String := "LITHP_PROMPT"

/-- The text of a variable without blanks around it, if anything is left. -/
def trimmed? (raw : Option String) : Option String :=
  (raw.map Text.trim).filter (!·.isEmpty)

/-- Level names with their ranks. -/
def levels : List (String × Nat) :=
  [("CRITICAL", 50), ("FATAL", 50), ("ERROR", 40), ("WARNING", 30), ("WARN", 30), ("INFO", 20),
   ("DEBUG", 10), ("NOTSET", 0)]

/-- The capital of a letter, where it is a basic letter. Two letters outside the basic alphabet
have one: the dotless i and the long s. -/
def capital (c : Char) : Char :=
  if c = 'ı' then 'I' else if c = 'ſ' then 'S' else c.toUpper

/-- The rank from which notices are shown; that of a warning unless a known level is named. -/
def logRank (raw : Option String) : Nat :=
  let named := (trimmed? raw).bind fun name => levels.lookup (name.map capital)
  named.getD 30

/-- A recursion limit that is no integer, as it was written. -/
structure BadLimit where
  written : String
deriving Repr, DecidableEq, Inhabited

def BadLimit.message (b : BadLimit) : String :=
  recursionLimitName ++ " must be an integer, got " ++ Text.quoted b.written

/-- The limit on recursion, if a positive one is set. -/
def recursionLimit (raw : Option String) : Except BadLimit (Option Nat) :=
  match trimmed? raw with
  | none => .ok none
  | some written =>
    match Number.readInteger? written.toList with
    | none => .error ⟨written⟩
    | some n => .ok (if 0 < n then some n.toNat else none)

def prompt (raw : Option String) : String :=
  raw.getD ""

/-- The recursion limit when none is set. -/
def defaultLimit : Nat := 5000

/-- The deepest nesting that a run allows, whatever the limit. -/
def deepestNesting : Nat := 5000

/-- The bound on the nesting of reading, evaluating and displaying that a recursion limit gives:
one level for every two of the limit. -/
def nestingBound (limit : Nat) : Nat :=
  min (limit / 2) deepestNesting

end Settings

end Lisplet
