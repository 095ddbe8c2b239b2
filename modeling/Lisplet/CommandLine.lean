import Lisplet.Settings
import Lisplet.Text.Lines
import Lisplet.Text.Utf8
import Lisplet.Transcript

/-! The command line. Arguments ask for help or name a file to run; without a file the standard
input is run, with a prompt. The plan of a run depends on arguments and environment variables
only, and carrying it out depends on the files and the input. -/

namespace Lisplet.CommandLine

/-- How a single argument is taken. Help may carry a text that it has no use for. -/
inductive Role where
  | positional
  | help
  | helpWith (ignored : String)
  | unknown
deriving Repr, DecidableEq, Inhabited

/-- Whether the characters behind a minus make a negative number, a line feed at the end aside. -/
def isNegativeNumber (cs : List Char) : Bool :=
  let cs := if cs.getLast? = some '\n' then cs.dropLast else cs
  match Text.spanDigits cs with
  | (_ :: _, []) => true
  | (_, '.' :: rest) =>
    match Text.spanDigits rest with
    | (_ :: _, []) => true
    | _ => false
  | _ => false

/-- A text that follows the short help option: more of the same option is no text. -/
def afterShortHelp (cs : List Char) : Role :=
  match cs, cs.dropWhile (· = 'h') with
  | _ :: _, [] => .help
  | _, rest => .helpWith (String.ofList rest)

/-- An argument that is no option: a negative number or a text with a space may be a file. -/
def otherwise (cs : List Char) : Role :=
  if isNegativeNumber cs || cs.contains ' ' then .positional else .unknown

/-- How an argument is taken. The long help option may be shortened. -/
def role (arg : String) : Role :=
  match arg.toList with
  | ['-', 'h'] => .help
  | '-' :: 'h' :: '=' :: text => afterShortHelp text
  | '-' :: 'h' :: text => afterShortHelp text
  | '-' :: '-' :: cs =>
    if "help".toList.take (cs.takeWhile (· ≠ '=')).length = cs.takeWhile (· ≠ '=') then
      match cs.dropWhile (· ≠ '=') with
      | [] => .help
      | _ :: text => .helpWith (String.ofList text)
    else otherwise ('-' :: cs)
  | '-' :: c :: cs => otherwise (c :: cs)
  | _ => .positional

/-- Why arguments or settings are refused. -/
inductive Refusal where
  | unrecognized (args : List String)
  | ignoredText (text : String)
  | badLimit (limit : Settings.BadLimit)
deriving Repr, Inhabited

def Refusal.message : Refusal → String
  | .unrecognized args => "unrecognized arguments: " ++ " ".intercalate args
  | .ignoredText text => "argument -h/--help: ignored explicit argument " ++ Text.quoted text
  | .badLimit limit => limit.message

/-- What the arguments ask for. -/
inductive Request where
  | help
  | refuse (why : Refusal)
  | run (path : Option String)
deriving Repr, Inhabited

def conclude (path : Option String) (extras : List String) : Request :=
  if extras.isEmpty then .run path else .refuse (.unrecognized extras)

/-- Takes in the arguments from left to right. The first positional one is the path; a double
minus that stands next to the path, or before it, ends the options. -/
def scan (path : Option String) (extras : List String) : List String → Request
  | [] => conclude path extras
  | "--" :: rest =>
    match path, rest with
    | none, [] => conclude none extras
    | none, p :: rest => conclude (some p) (extras ++ rest)
    | some p, rest => conclude (some p) (extras ++ "--" :: rest)
  | arg :: rest =>
    match role arg, path with
    | .help, _ => .help
    | .helpWith text, _ => .refuse (.ignoredText text)
    | .unknown, _ => scan path (extras ++ [arg]) rest
    | .positional, some p => scan (some p) (extras ++ [arg]) rest
    | .positional, none =>
      match rest with
      | "--" :: rest => conclude (some arg) (extras ++ rest)
      | rest => scan (some arg) extras rest

def request (args : List String) : Request :=
  scan none [] args

def usage : String := "usage: lithp [-h] [path]\n"

def helpText : String :=
  usage ++ "\nEvaluate lithp expressions, one line at a time.\n\n" ++
    "positional arguments:\n  path        file to evaluate (default: read stdin)\n\n" ++
    "options:\n  -h, --help  show this help message and exit\n"

/-- What breaks a run off from outside of it. -/
inductive Crash where
  | missingFile (path : String)
  | directory (path : String)
  | undecodable
  | limitTooLarge
  | fault (f : Fault)
deriving Inhabited

def Crash.message : Crash → String
  | .missingFile path => "[Errno 2] No such file or directory: " ++ Text.quoted path
  | .directory path => "[Errno 21] Is a directory: " ++ Text.quoted path
  | .undecodable => "invalid UTF-8"
  | .limitTooLarge => "Python int too large to convert to C int"
  | .fault f => f.message

inductive Ending where
  | exit (code : Nat)
  | crash (c : Crash)
deriving Inhabited

/-- A run that is ready to start. `limit` is there if a recursion limit was set, and `opening` are
the events up to the start. -/
structure Launch where
  path : Option String
  prompt : String
  limit : Option Nat
  opening : List Event
deriving Inhabited

def Launch.bound (l : Launch) : Nat :=
  Settings.nestingBound (l.limit.getD Settings.defaultLimit)

/-- What arguments and settings lead to. -/
inductive Plan where
  | stop (events : List Event) (ending : Ending)
  | launch (l : Launch)
deriving Inhabited

/-- The largest recursion limit that can be set. -/
def largestLimit : Nat := 2147483647

def refuse (why : Refusal) : Plan :=
  .stop [.err (usage ++ "lithp: error: " ++ why.message ++ "\n")] (.exit 2)

def plan (args : List String) (vars : Variables) : Plan :=
  match request args with
  | .help => .stop [.out helpText] (.exit 0)
  | .refuse why => refuse why
  | .run path =>
    match Settings.recursionLimit vars.recursionLimit with
    | .error limit => refuse (.badLimit limit)
    | .ok limit =>
      let setting := (limit.map fun n => Event.notice (.limitSet n)).toList
      if largestLimit < limit.getD 0 then .stop setting (.crash .limitTooLarge)
      else
        .launch
          { path, limit
            prompt := if path.isNone then Settings.prompt vars.prompt else ""
            opening := setting ++ [Transcript.readyNotice Session.start] }

/-- What stands under a path. -/
inductive FileState where
  | missing
  | directory
  | file (bytes : List UInt8)
deriving Inhabited

/-- A finished run. -/
structure Outcome where
  events : List Event
  ending : Ending
  limit : Option Nat := none
deriving Inhabited

/-- Failed lines matter for the exit code only when a file was run. -/
def exitCode (path : Option String) (failures : Nat) : Nat :=
  if path.isSome && 0 < failures then 1 else 0

def ofRun (l : Launch) (r : Run) : Outcome :=
  { events := l.opening ++ r.events
    ending := match r.failures with
      | .ok n => .exit (exitCode l.path n)
      | .error f => .crash (.fault f)
    limit := l.limit }

/-- How many bytes of a file are read at once. -/
def blockSize : Nat := 8192

/-- Runs the bytes of a file, read block by block. Bytes that cannot be decoded break the run off,
after the lines that end in the text handed on before them. -/
def runBytes (l : Launch) (bytes : List UInt8) : Outcome :=
  match Text.decodeUtf8 blockSize bytes with
  | .complete text =>
    ofRun l (Transcript.runLines l.bound l.prompt (Text.lines text) Session.start)
  | .faulty before =>
    let r := Transcript.feed l.bound l.prompt (Text.endedLines before) 0 Session.start
    let crash := match r.failures with
      | .ok _ => .undecodable
      | .error f => .fault f
    { ofRun l r with ending := .crash crash }

/-- Carries out a plan, given the standard input and what stands under the path. -/
def carryOut (input : String) (file : String → FileState) : Plan → Outcome
  | .stop events ending => { events, ending }
  | .launch l =>
    match l.path with
    | none => ofRun l (Transcript.runLines l.bound l.prompt (Text.lines input) Session.start)
    | some path =>
      match file path with
      | .missing => { events := l.opening, ending := .crash (.missingFile path), limit := l.limit }
      | .directory => { events := l.opening, ending := .crash (.directory path), limit := l.limit }
      | .file bytes => runBytes l bytes

/-- A whole run of the program. -/
def run (args : List String) (vars : Variables) (input : String) (file : String → FileState) :
    Outcome :=
  carryOut input file (plan args vars)

end Lisplet.CommandLine
