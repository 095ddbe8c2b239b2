import Lisplet.Fault
import Lisplet.Store

/-! Computations on the store. A computation gives a value or a fault, and in both cases the store
that it leaves: what was bound before a fault stays bound. This module has the computations from
which evaluation is built: texts for messages, look-up, binding, and new frames. -/

namespace Lisplet

/-- A computation on the store that may fail; the store survives a failure. -/
abbrev Eval := ExceptT Fault (StateM Store)

namespace Eval

variable {α β : Type}

/-- Runs a computation, giving its outcome and the store it leaves. -/
def on (act : Eval α) (s : Store) : Except Fault α × Store :=
  (ExceptT.run act).run s

@[simp] theorem on_pure (a : α) (s : Store) : (pure a : Eval α).on s = (.ok a, s) := rfl

@[simp] theorem on_throw (f : Fault) (s : Store) : (throw f : Eval α).on s = (.error f, s) := rfl

/-- A computation goes on from the store that the one before it left. -/
theorem on_bind (x : Eval α) (k : α → Eval β) (s : Store) :
    (x >>= k).on s = match x.on s with
      | (.ok a, s') => (k a).on s'
      | (.error f, s') => (.error f, s') := by
  change ((ExceptT.bindCont k) (x.on s).1).run (x.on s).2 = _
  rcases x.on s with ⟨_ | _, _⟩ <;> rfl

@[simp] theorem on_get (s : Store) : (get : Eval Store).on s = (.ok s, s) := rfl

@[simp] theorem on_modify (g : Store → Store) (s : Store) :
    (modify g : Eval Unit).on s = (.ok (), g s) := rfl

/-- The display text of a value, for a message. -/
def displayed (depth : Nat) (v : Value) : Eval String :=
  match v.display depth with
  | .ok text => pure text
  | .error o => throw (.undisplayable o)

/-- The inspection text of a value, for a message. -/
def inspected (depth : Nat) (v : Value) : Eval String :=
  if v.depth ≤ depth then pure v.inspect else throw (.undisplayable .tooDeep)

/-- The value of a name, from a frame outwards. -/
def lookup (f : FrameId) (n : String) : Eval Value := do
  match (← get).lookup? f n with
  | some v => pure v
  | none => throw (.undefined (.symbol n) n)

/-- Binds a symbol in a frame and gives the value that it had there before. Nothing but a symbol
can be bound. -/
def bindSymbol (depth : Nat) (f : FrameId) (name v : Value) : Eval (Option Value) := do
  match name with
  | .symbol n =>
    let previous := (← get).own? f n
    modify (·.define f n v)
    return previous
  | other => throw (.misuse (.bindTarget (← inspected depth other)))

/-- A new frame inside `outer`. -/
def newFrame (outer : Option FrameId) : Eval FrameId :=
  modifyGet fun s => (s.next, s.push outer)

/-- A new frame inside `outer` with the formals bound to the arguments in order. Arguments without
a formal are dropped, formals without an argument stay unbound there. -/
def extend (depth : Nat) (formals args : List Value) (outer : FrameId) : Eval FrameId := do
  let f ← newFrame (some outer)
  (formals.zip args).forM fun (name, v) => discard (bindSymbol depth f name v)
  return f

theorem on_lookup (f : FrameId) (n : String) (s : Store) :
    (lookup f n).on s = match s.lookup? f n with
      | some v => (.ok v, s)
      | none => (.error (.undefined (.symbol n) n), s) := by
  rw [lookup, on_bind, on_get]
  cases h : s.lookup? f n <;> simp only [h] <;> rfl

/-- A symbol can always be bound, and only its frame changes. -/
@[simp] theorem on_bindSymbol (depth : Nat) (f : FrameId) (n : String) (v : Value) (s : Store) :
    (bindSymbol depth f (.symbol n) v).on s = (.ok (s.own? f n), s.define f n v) := rfl

@[simp] theorem on_newFrame (outer : Option FrameId) (s : Store) :
    (newFrame outer).on s = (.ok s.next, s.push outer) := rfl

end Eval

end Lisplet
