import Lisplet.Eval.Basic

/-! Frames as a caller handles them: any value but a list may be given as a name, and only symbols
are ever bound. Pairs that are bound in bulk first collapse to one pair for each name. Frames have
texts, a short one and one with the whole chain. -/

namespace Lisplet

/-- The name that a value is, if it is a symbol. -/
def Value.name? : Value → Option String
  | .symbol n => some n
  | _ => none

namespace Environment

/-- The name to search for, if the value given is a symbol. A list cannot be searched for at all. -/
def searched (name : Value) : Eval (Option String) :=
  match name with
  | .list _ => throw .listAsName
  | v => pure v.name?

/-- The nearest frame that binds a name. -/
def find (f : FrameId) (name : Value) : Eval (Option FrameId) := do
  return (← searched name).bind ((← get).find? f)

def contains (f : FrameId) (name : Value) : Eval Bool := do
  return (← find f name).isSome

/-- The value of a name, or the default. -/
def getD (f : FrameId) (name default : Value) : Eval Value := do
  return ((← searched name).bind ((← get).lookup? f)).getD default

/-- The value of a name; that it is unbound is a fault. -/
def lookup (depth : Nat) (f : FrameId) (name : Value) : Eval Value := do
  match ← searched name with
  | some n => Eval.lookup f n
  | none =>
    discard (Eval.inspected depth name)
    throw (.undefined name name.label)

/-- Adds a pair: in the place of the pair with the same symbol, else at the end. -/
def place (pair : Value × Value) : List (Value × Value) → List (Value × Value)
  | [] => [pair]
  | (k, v) :: rest =>
    if k.isSymbol && k.name? == pair.1.name? then (k, pair.2) :: rest else (k, v) :: place pair rest

/-- One pair for each name, in the place of its first pair and with the value of its last. Pairs
whose first member is no symbol stay as they are. -/
def collapse (pairs : List (Value × Value)) : List (Value × Value) :=
  pairs.foldl (fun done pair => place pair done) []

/-- The pairs as a map, in which a list cannot be a key. -/
def mapping (pairs : List (Value × Value)) : Eval (List (Value × Value)) := do
  pairs.forM fun (name, _) => discard (searched name)
  return collapse pairs

/-- Binds the pairs of a map in order; the first that cannot be bound ends it. -/
def bindAll (depth : Nat) (f : FrameId) (pairs : List (Value × Value)) : Eval Unit :=
  pairs.forM fun (name, v) => discard (Eval.bindSymbol depth f name v)

/-- The bindings of a frame as text. -/
def bindingsText (bs : Bindings) : String :=
  "\x7b" ++ ", ".intercalate (bs.map fun (n, v) => n ++ ": " ++ v.inspect) ++ "\x7d"

/-- The text of a frame, with a mark when there are frames around it. -/
def frameText (s : Store) (f : FrameId) : String :=
  bindingsText (s.bindings f) ++ if (s.outer? f).isSome then " -> ..." else ""

/-- Whether a frame is only counted in the text of the chain of `f`: the outermost frame is, unless
it is the one asked for. -/
def isCounted (s : Store) (f g : FrameId) : Bool :=
  g ≠ f && (s.outer? g).isNone

/-- The text of a frame in its chain. -/
def chainText (s : Store) (f : FrameId) : String :=
  let link (g : FrameId) :=
    if isCounted s f g then "<global " ++ toString (s.bindings g).length ++ " bindings>"
    else bindingsText (s.bindings g)
  "<Environment chain: " ++ " -> ".intercalate ((s.chain f).map link) ++ ">"

/-- Whether the values bound in a frame are nested within a bound. -/
def isShallow (depth : Nat) (s : Store) (f : FrameId) : Bool :=
  (s.bindings f).all fun (_, v) => v.depth ≤ depth

/-- The text of a frame, under a bound on the nesting of the values in it. -/
def describe (depth : Nat) (f : FrameId) : Eval String := do
  let s ← get
  if isShallow depth s f then return frameText s f else throw (.undisplayable .tooDeep)

/-- The text of a chain, under a bound on the nesting of the values in the frames that it spells
out. -/
def describeChain (depth : Nat) (f : FrameId) : Eval String := do
  let s ← get
  let spelled := (s.chain f).filter fun g => !isCounted s f g
  if spelled.all (isShallow depth s) then return chainText s f else throw (.undisplayable .tooDeep)

end Environment

end Lisplet
