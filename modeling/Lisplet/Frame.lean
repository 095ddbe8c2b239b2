import Lisplet.Value

/-! One frame of bindings. A frame lists its bindings in the order in which the names were first
bound; binding a name again changes the value and keeps the place. -/

namespace Lisplet

/-- Names with their values, each name once, in the order of first binding. -/
abbrev Bindings := List (String × Value)

namespace Bindings

def get? (bs : Bindings) (n : String) : Option Value :=
  match bs with
  | [] => none
  | (m, v) :: rest => if m = n then some v else get? rest n

/-- Binds a name: in its place if it has one, else at the end. -/
def insert (bs : Bindings) (n : String) (v : Value) : Bindings :=
  match bs with
  | [] => [(n, v)]
  | (m, w) :: rest => if m = n then (n, v) :: rest else (m, w) :: insert rest n v

def names (bs : Bindings) : List String :=
  bs.map Prod.fst

@[simp] theorem get?_insert_self (bs : Bindings) (n : String) (v : Value) :
    get? (insert bs n v) n = some v := by
  induction bs with
  | nil => simp [insert, get?]
  | cons b bs ih =>
    obtain ⟨m, w⟩ := b
    by_cases h : m = n <;> simp [insert, get?, h, ih]

@[simp] theorem get?_insert_of_ne (bs : Bindings) {n m : String} (v : Value) (h : n ≠ m) :
    get? (insert bs n v) m = get? bs m := by
  induction bs with
  | nil => simp [insert, get?, h]
  | cons b bs ih =>
    obtain ⟨k, w⟩ := b
    by_cases hk : k = n
    · subst hk; simp [insert, get?, h]
    · simp only [insert, hk, ↓reduceIte, get?, ih]

/-- A new name goes to the end and a known one keeps its place. -/
theorem names_insert (bs : Bindings) (n : String) (v : Value) :
    names (insert bs n v) = if n ∈ names bs then names bs else names bs ++ [n] := by
  induction bs with
  | nil => simp [insert, names]
  | cons b bs ih =>
    obtain ⟨m, w⟩ := b
    by_cases h : m = n
    · subst h; simp [insert, names]
    · have hn : n ≠ m := fun e => h e.symm
      simp only [names] at ih
      by_cases hmem : n ∈ bs.map Prod.fst <;> simp [insert, names, h, hn, ih, hmem]

end Bindings

/-- A frame: its bindings, and the frame around it unless it is outermost. -/
structure Frame where
  outer : Option FrameId := none
  bindings : Bindings := []
deriving Inhabited

end Lisplet
