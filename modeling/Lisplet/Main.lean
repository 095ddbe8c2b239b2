import Lisplet.CommandLine

/-! The program: it gathers arguments, environment variables, files and input, and writes what the
transcript of the run says. Standard input is run as it comes in. -/

namespace Lisplet.CommandLine

/-- Writes events, with the notices at or above a rank. -/
def write (rank : Nat) (events : List Event) : IO Unit := do
  let out ← IO.getStdout
  for e in events do
    match e with
    | .out t => out.putStr t; out.flush
    | .err t => IO.eprint t
    | .notice n => if rank ≤ n.level.rank then IO.eprint n.logLine

def readVariables : IO Variables :=
  return { logLevel := ← IO.getEnv Settings.logLevelName
           recursionLimit := ← IO.getEnv Settings.recursionLimitName
           prompt := ← IO.getEnv Settings.promptName }

def lookAt (path : String) : IO FileState := do
  try
    return .file (← IO.FS.readBinFile path).toList
  catch
    | .noFileOrDirectory .. => return .missing
    | .inappropriateType .. => return .directory
    | e => throw e

/-- Runs the input line by line until it ends, and gives the count of failed lines. -/
partial def converse (rank : Nat) (l : Launch) (input : IO.FS.Stream) (failures : Nat)
    (s : Store) : IO (Except Fault Nat) := do
  let chunk ← input.getLine
  if chunk.isEmpty then return .ok failures
  let r := Transcript.feed l.bound l.prompt (Text.lines chunk) failures s
  write rank r.events
  match r.failures with
  | .ok n => converse rank l input n r.store
  | .error f => return .error f

def finish (rank : Nat) (o : Outcome) : IO UInt32 := do
  write rank o.events
  match o.ending with
  | .exit code => return UInt32.ofNat code
  | .crash c =>
    IO.eprintln c.message
    return 1

end Lisplet.CommandLine

open Lisplet CommandLine in
def main (args : List String) : IO UInt32 := do
  let vars ← readVariables
  let rank := Settings.logRank vars.logLevel
  match plan args vars with
  | .stop events ending => finish rank { events, ending }
  | .launch l =>
    match l.path with
    | some path =>
      let state ← lookAt path
      finish rank (carryOut "" (fun _ => state) (.launch l))
    | none =>
      write rank (l.opening ++ Transcript.promptEvents l.prompt)
      match ← converse rank l (← IO.getStdin) 0 Session.start with
      | .ok n =>
        finish rank { events := [.notice (.finished n)], ending := .exit (exitCode none n) }
      | .error f => finish rank { events := [], ending := .crash (.fault f) }
