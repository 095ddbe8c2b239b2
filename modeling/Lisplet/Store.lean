import Lisplet.Frame

/-! The store of all frames. Frames are only ever added, and are shared by number: a procedure and
every call of it refer to the same frame, so a binding made there later is seen by all of them. A
frame is made with its outer link and keeps it. The link is followed only to an earlier frame, so
every walk outwards ends. -/

namespace Lisplet

structure Store where
  frames : Array Frame := #[]
deriving Inhabited

namespace Store

def get? (s : Store) (f : FrameId) : Option Frame :=
  s.frames[f]?

/-- The number that the next new frame gets. -/
def next (s : Store) : FrameId :=
  s.frames.size

/-- Adds an empty frame inside `outer`. Its number is `s.next`. -/
def push (s : Store) (outer : Option FrameId) : Store :=
  ⟨s.frames.push { outer := outer }⟩

/-- Binds a name in one frame; no other frame is looked at. -/
def define (s : Store) (f : FrameId) (n : String) (v : Value) : Store :=
  ⟨s.frames.modify f fun fr => { fr with bindings := fr.bindings.insert n v }⟩

def bindings (s : Store) (f : FrameId) : Bindings :=
  match s.get? f with
  | some fr => fr.bindings
  | none => []

/-- The value that a name has in one frame itself. -/
def own? (s : Store) (f : FrameId) (n : String) : Option Value :=
  (s.bindings f).get? n

/-- The frame around a frame. -/
def outer? (s : Store) (f : FrameId) : Option { o : FrameId // o < f } :=
  match s.get? f with
  | some { outer := some o, .. } => if h : o < f then some ⟨o, h⟩ else none
  | _ => none

/-- The frames from `f` outwards. -/
def chain (s : Store) (f : FrameId) : List FrameId :=
  match s.outer? f with
  | some o => f :: chain s o.1
  | none => [f]
termination_by f
decreasing_by exact o.2

/-- The outermost frame around `f`. -/
def root (s : Store) (f : FrameId) : FrameId :=
  match s.outer? f with
  | some o => root s o.1
  | none => f
termination_by f
decreasing_by exact o.2

/-- The nearest frame, from `f` outwards, that binds a name. -/
def find? (s : Store) (f : FrameId) (n : String) : Option FrameId :=
  if (s.own? f n).isSome then some f
  else
    match s.outer? f with
    | some o => find? s o.1 n
    | none => none
termination_by f
decreasing_by exact o.2

/-- The value of a name, from `f` outwards. -/
def lookup? (s : Store) (f : FrameId) (n : String) : Option Value :=
  (s.find? f n).bind fun g => s.own? g n

/-- Binds names one after another in one frame. -/
def defineAll (s : Store) (f : FrameId) (bs : Bindings) : Store :=
  bs.foldl (fun s (n, v) => s.define f n v) s

@[simp] theorem next_push (s : Store) (outer : Option FrameId) :
    (s.push outer).next = s.next + 1 := by
  simp [push, next]

@[simp] theorem next_define (s : Store) (f : FrameId) (n : String) (v : Value) :
    (s.define f n v).next = s.next := by
  simp [define, next]

/-- The new frame is empty and has the outer link it was given. -/
@[simp] theorem get?_push_next (s : Store) (outer : Option FrameId) :
    (s.push outer).get? s.next = some { outer := outer } := by
  simp [push, next, get?]

/-- A new frame leaves every old one as it was. -/
theorem get?_push_of_lt (s : Store) (outer : Option FrameId) {f : FrameId} (h : f < s.next) :
    (s.push outer).get? f = s.get? f := by
  have hne : f ≠ s.frames.size := Nat.ne_of_lt h
  simp [push, get?, Array.getElem?_push, hne]

/-- A binding changes the bindings of its frame and keeps the outer link. -/
theorem get?_define_self (s : Store) (f : FrameId) (n : String) (v : Value) :
    (s.define f n v).get? f =
      (s.get? f).map fun fr => { fr with bindings := fr.bindings.insert n v } := by
  simp [define, get?, Array.getElem?_modify]

/-- A binding made in one frame leaves every other frame as it was. -/
theorem get?_define_of_ne (s : Store) {f g : FrameId} (n : String) (v : Value) (h : f ≠ g) :
    (s.define f n v).get? g = s.get? g := by
  simp [define, get?, Array.getElem?_modify, h]

end Store

end Lisplet
