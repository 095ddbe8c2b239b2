import Mathlib.Data.List.Induction
import Mathlib.Order.Bounds.Defs
import Lisplet.Proofs.Drivers
import Lisplet.Proofs.Scoping

/-! Arguments of calls. A call adds one frame inside the frame that its procedure was made in, and
binds the formals in it one after another, as long as there are arguments. So a formal that is
repeated has the last argument that falls to it, and the new frame lists each formal once, in the
order in which they are first met. A name to which no argument falls is looked for from the frame of
the procedure on, with whatever has been defined there by then. That holds of formals too: one that
was given no argument is undefined in the body only if no frame around the procedure binds it. -/

namespace Lisplet

namespace Bindings

/-- Binds names one after another. -/
def insertAll (bs : Bindings) (ps : List (String × Value)) : Bindings :=
  ps.foldl (fun bs p => bs.insert p.1 p.2) bs

variable {bs : Bindings} {ps : List (String × Value)} {n : String}

theorem get?_insertAll_of_notMem (h : n ∉ names ps) : (bs.insertAll ps).get? n = bs.get? n := by
  induction ps generalizing bs with
  | nil => rfl
  | cons p ps ih =>
    obtain ⟨hne, hps⟩ : n ≠ p.1 ∧ n ∉ names ps := by simpa [names] using h
    exact (ih hps).trans (get?_insert_of_ne bs p.2 hne.symm)

/-- The last pair for a name decides its value. -/
theorem get?_insertAll_of_last {i : Nat} {v : Value} (hi : ps[i]? = some (n, v))
    (hlast : ∀ j w, i < j → ps[j]? ≠ some (n, w)) : (bs.insertAll ps).get? n = some v := by
  obtain ⟨hlt, hget⟩ := List.getElem?_eq_some_iff.1 hi
  have hsplit : ps = ps.take i ++ (n, v) :: ps.drop (i + 1) := by
    rw [← hget, List.getElem_cons_drop, List.take_append_drop]
  have hrest : n ∉ names (ps.drop (i + 1)) := by
    intro hmem
    obtain ⟨⟨_, w⟩, hw, rfl⟩ := List.mem_map.1 hmem
    obtain ⟨j, hj⟩ := List.mem_iff_getElem?.1 hw
    rw [List.getElem?_drop] at hj
    exact hlast (i + 1 + j) w (by omega) hj
  rw [hsplit, insertAll, List.foldl_append, List.foldl_cons]
  exact (get?_insertAll_of_notMem hrest).trans (get?_insert_self _ n v)

/-- Names bound one after another come behind those that are there already, in the order in which
they are first met. -/
theorem names_insertAll (bs : Bindings) (ps : List (String × Value)) :
    names (bs.insertAll ps) = names bs ++ ((names ps).removeAll (names bs)).eraseDups := by
  -- from the end, since a further pair either finds its name bound or adds it as the last one
  induction ps using List.reverseRecOn with
  | nil => simp [insertAll, names]
  | append_singleton ps p ih =>
    have hsnoc : bs.insertAll (ps ++ [p]) = (bs.insertAll ps).insert p.1 p.2 := by
      simp [insertAll]
    have hnames : (names (ps ++ [p])).removeAll (names bs) =
        (names ps).removeAll (names bs) ++ [p.1].removeAll (names bs) := by
      simp [names, List.removeAll]
    rw [hsnoc, names_insert, ih, hnames, List.eraseDups_append]
    by_cases hold : p.1 ∈ names bs
    · simp [hold, List.removeAll]
    · by_cases hmem : p.1 ∈ names ps
      · simp [hold, hmem, List.removeAll]
      · simp [hold, hmem, List.removeAll, List.eraseDups_cons]

theorem names_insertAll_nil (ps : List (String × Value)) :
    names (insertAll [] ps) = (names ps).eraseDups := by
  simpa [names] using names_insertAll [] ps

theorem names_zip (ns : List String) (vs : List Value) :
    names (ns.zip vs) = ns.take vs.length := by
  induction ns generalizing vs with
  | nil => simp [names]
  | cons n ns ih =>
    cases vs with
    | nil => rfl
    | cons v vs => simpa [names] using ih vs

end Bindings

namespace Store

variable {s : Store} {f g : FrameId}

theorem get?_defineAll_of_ne (s : Store) (bs : Bindings) (h : f ≠ g) :
    (s.defineAll f bs).get? g = s.get? g := by
  induction bs generalizing s with
  | nil => rfl
  | cons p bs ih => exact (ih _).trans (get?_define_of_ne s p.1 p.2 h)

theorem get?_defineAll_self {fr : Frame} (h : s.get? f = some fr) (bs : Bindings) :
    (s.defineAll f bs).get? f = some { fr with bindings := fr.bindings.insertAll bs } := by
  induction bs generalizing s fr with
  | nil => exact h
  | cons p bs ih =>
    have hdefine := s.get?_define_self f p.1 p.2
    rw [h] at hdefine
    exact ih hdefine

theorem next_defineAll (s : Store) (f : FrameId) (bs : Bindings) :
    (s.defineAll f bs).next = s.next := by
  induction bs generalizing s with
  | nil => rfl
  | cons p bs ih => exact (ih _).trans (next_define s f p.1 p.2)

/-- The store with the frame of a call added. -/
def call (s : Store) (names : List String) (args : List Value) (outer : FrameId) : Store :=
  (s.push (some outer)).defineAll s.next (names.zip args)

variable (names : List String) (args : List Value) {outer : FrameId}

theorem next_call : (s.call names args outer).next = s.next + 1 := by
  rw [call, next_defineAll, next_push]

theorem get?_call_of_lt (hg : g < s.next) : (s.call names args outer).get? g = s.get? g := by
  rw [call, get?_defineAll_of_ne _ _ (Nat.ne_of_gt hg), get?_push_of_lt _ _ hg]

theorem get?_call_next : (s.call names args outer).get? s.next =
    some { outer := some outer, bindings := Bindings.insertAll [] (names.zip args) } :=
  get?_defineAll_self (get?_push_next s (some outer)) _

/-- What a name stands for depends on no frame later than the one where it is looked for. -/
theorem lookup?_congr {t : Store} (h : ∀ k ≤ g, t.get? k = s.get? k) (n : String) :
    t.lookup? g n = s.lookup? g n := by
  induction g using Nat.strongRecOn with
  | ind g ih =>
    have hget := h g (Nat.le_refl g)
    rw [lookup?_eq_or, lookup?_eq_or, own?, own?, bindings, bindings, outer?, outer?, hget]
    rw [← outer?]
    cases s.outer? g with
    | none => rfl
    | some o =>
      have hinner := ih o.1 o.2 fun k hk => h k (Nat.le_trans hk (Nat.le_of_lt o.2))
      rw [Option.bind_some, Option.bind_some, hinner]

/-- In the frame of a call a name has the argument that was bound to it. If there is none, it has
the value that it has in the frame of the procedure, whatever is defined there later. -/
theorem lookup?_call_next (houter : outer < s.next) (later : Bindings) (n : String) :
    ((s.call names args outer).defineAll outer later).lookup? s.next n =
      ((Bindings.insertAll [] (names.zip args)).get? n).or
        (((s.call names args outer).defineAll outer later).lookup? outer n) := by
  have hget : ((s.call names args outer).defineAll outer later).get? s.next = _ :=
    (get?_defineAll_of_ne _ later (Nat.ne_of_lt houter)).trans (get?_call_next names args)
  have hown : ((s.call names args outer).defineAll outer later).own? s.next n =
      (Bindings.insertAll [] (names.zip args)).get? n := by
    rw [own?, bindings, hget]
  have hlink : ((s.call names args outer).defineAll outer later).outer? s.next =
      some ⟨outer, houter⟩ := by
    simp [outer?, hget, houter]
  rw [lookup?_eq_or, hown, hlink, Option.bind_some]

end Store

namespace Eval

/-- Symbols are bound one after another, and only then is the rest looked at. -/
theorem on_forM_bindSymbol (depth : Nat) (f : FrameId) (ps : Bindings)
    (rest : List (Value × Value)) (s : Store) :
    ((ps.map (Prod.map Value.symbol id) ++ rest).forM fun (name, v) =>
      discard (bindSymbol depth f name v)).on s =
    (rest.forM fun (name, v) => discard (bindSymbol depth f name v)).on (s.defineAll f ps) := by
  induction ps generalizing s with
  | nil => rfl
  | cons p ps ih => exact ih (s.define f p.1 p.2)

/-- Symbols can always be bound to arguments, and the frame of the call is all that is added. -/
theorem on_extend (depth : Nat) (names : List String) (args : List Value) (outer : FrameId)
    (s : Store) :
    (extend depth (names.map .symbol) args outer).on s = (.ok s.next, s.call names args outer) := by
  rw [extend, on_bind, on_newFrame]
  simp only
  rw [on_bind, List.zip_map_left, ← List.append_nil (List.map _ _), on_forM_bindSymbol]
  rfl

end Eval

/-- The places at which an argument falls to a formal with the name `n`. -/
def places (names : List String) (args : List Value) (n : String) : Set Nat :=
  {i | i < min names.length args.length ∧ names[i]? = some n}

section Places

variable {names : List String} {args : List Value} {n : String}

/-- The last argument that falls to a formal is the one that it is bound to. -/
theorem get?_arguments_of_isGreatest {i : Nat} (h : IsGreatest (places names args n) i) :
    ∃ v, args[i]? = some v ∧ (Bindings.insertAll [] (names.zip args)).get? n = some v := by
  obtain ⟨⟨hlt, hname⟩, hlast⟩ := h
  obtain ⟨v, hv⟩ : ∃ v, args[i]? = some v :=
    ⟨_, List.getElem?_eq_getElem (Nat.lt_of_lt_of_le hlt (Nat.min_le_right _ _))⟩
  refine ⟨v, hv, Bindings.get?_insertAll_of_last (i := i) ?_ ?_⟩
  · exact List.getElem?_zip_eq_some.2 ⟨hname, hv⟩
  · intro j w hij hj
    obtain ⟨hn, hw⟩ := List.getElem?_zip_eq_some.1 hj
    have hj' : j ∈ places names args n :=
      ⟨Nat.lt_min.2 ⟨(List.getElem?_eq_some_iff.1 hn).1, (List.getElem?_eq_some_iff.1 hw).1⟩, hn⟩
    exact Nat.not_lt.2 (hlast hj') hij

theorem get?_arguments_of_notMem (h : ∀ i, i ∉ places names args n) :
    (Bindings.insertAll [] (names.zip args)).get? n = none := by
  refine Bindings.get?_insertAll_of_notMem fun hmem => ?_
  rw [Bindings.names_zip] at hmem
  obtain ⟨i, hi⟩ := List.mem_iff_getElem?.1 hmem
  rw [List.getElem?_take] at hi
  split at hi
  · rename_i hlt
    exact h i ⟨Nat.lt_min.2 ⟨(List.getElem?_eq_some_iff.1 hi).1, hlt⟩, hi⟩
  · cases hi

end Places

/-- A call binds its arguments. For a procedure with any symbols as formals, and for any arguments,
one frame is added, inside the frame of the procedure, and every other frame stays as it was. The
new frame lists the formals that have an argument, each once and in the order in which they are
first met. Whatever is defined later in the frame of the procedure, a name has in the new frame the
last argument that falls to it, and if there is none, a look-up ends as it does in the frame of the
procedure. -/
theorem call_binds_arguments (depth : Nat) (names : List String) (args : List Value) {s : Store}
    {outer : FrameId} (houter : outer < s.next) :
    ∃ s', (Eval.extend depth (names.map .symbol) args outer).on s = (.ok s.next, s') ∧
      s'.next = s.next + 1 ∧ (∀ g < s.next, s'.get? g = s.get? g) ∧
      (∃ fr, s'.get? s.next = some fr ∧ fr.outer = some outer ∧
        fr.bindings.names = (names.take args.length).eraseDups) ∧
      ∀ (later : Bindings) (n : String),
        (∀ i, IsGreatest (places names args n) i → ∃ v, args[i]? = some v ∧
          (Eval.lookup s.next n).on (s'.defineAll outer later) =
            (.ok v, s'.defineAll outer later)) ∧
        ((∀ i, i ∉ places names args n) →
          (Eval.lookup s.next n).on (s'.defineAll outer later) =
            (Eval.lookup outer n).on (s'.defineAll outer later)) := by
  refine ⟨_, Eval.on_extend depth names args outer s, Store.next_call names args,
    fun g hg => Store.get?_call_of_lt names args hg, ⟨_, Store.get?_call_next names args, rfl, ?_⟩,
    fun later n => ⟨fun i hi => ?_, fun hnone => ?_⟩⟩
  · rw [Bindings.names_insertAll_nil, Bindings.names_zip]
  · obtain ⟨v, hv, hget⟩ := get?_arguments_of_isGreatest hi
    refine ⟨v, hv, ?_⟩
    rw [Eval.on_lookup, Store.lookup?_call_next names args houter, hget]
    rfl
  · have hget := get?_arguments_of_notMem hnone
    rw [Eval.on_lookup, Store.lookup?_call_next names args houter, hget, Option.none_or,
      Eval.on_lookup]

open Session

/-- Of three formals with two arguments the last repeats the first, and has no argument of its own:
the name keeps the first argument. A name that is defined around the procedure after the call is
found from inside it. -/
theorem repeated_formal_keeps_argument :
    globalFrame < start.next ∧ IsGreatest (places ["a", "b", "a"] [.yes, .no] "a") 0 ∧
      (∀ i, i ∉ places ["a", "b", "a"] [.yes, .no] "c") ∧
      ∃ s', (Eval.extend 9 (["a", "b", "a"].map .symbol) [.yes, .no] globalFrame).on start =
          (.ok start.next, s') ∧
        (Eval.lookup start.next "a").on s' = (.ok .yes, s') ∧
        (Eval.lookup start.next "c").on (s'.define globalFrame "c" .unit) =
          (Eval.lookup globalFrame "c").on (s'.define globalFrame "c" .unit) := by
  have hgreatest : IsGreatest (places ["a", "b", "a"] [.yes, .no] "a") 0 := by
    refine ⟨⟨by decide, rfl⟩, ?_⟩
    rintro i ⟨hlt, hi⟩
    have hcases : ∀ i < 2, ["a", "b", "a"][i]? = some "a" → i ≤ 0 := by decide
    exact hcases i hlt hi
  have hnone : ∀ i, i ∉ places ["a", "b", "a"] [.yes, .no] "c" := by
    rintro i ⟨-, hi⟩
    simpa using List.mem_of_getElem? hi
  obtain ⟨s', hextend, -, -, -, hlookup⟩ :=
    call_binds_arguments 9 ["a", "b", "a"] [.yes, .no] start_sound.globalFrame_lt
  obtain ⟨v, hv, ha⟩ := (hlookup [] "a").1 0 hgreatest
  cases hv
  exact ⟨start_sound.globalFrame_lt, hgreatest, hnone, s', hextend, ha,
    (hlookup [("c", .unit)] "c").2 hnone⟩

/-- A name that no argument falls to, be it a formal or not, stands in the frame of the call for
what it stands for in the frame of the procedure. -/
theorem Store.lookup?_call_of_missing {names : List String} {args : List Value} {s : Store}
    {outer : FrameId} (houter : outer < s.next) {n : String}
    (hmissing : ∀ i < args.length, names[i]? ≠ some n) :
    (s.call names args outer).lookup? s.next n = s.lookup? outer n := by
  have hnone : ∀ i, i ∉ places names args n := fun i hi =>
    hmissing i (Nat.lt_of_lt_of_le hi.1 (Nat.min_le_right _ _)) hi.2
  -- the walk goes on in frames that were there before the call, which has changed none of them
  have hcall := Store.lookup?_call_next names args houter [] n
  rw [get?_arguments_of_notMem hnone, Option.none_or] at hcall
  refine hcall.trans (Store.lookup?_congr (fun k hk => ?_) n)
  exact Store.get?_call_of_lt names args (Nat.lt_of_le_of_lt hk houter)

/-- A look-up of a name that no argument falls to ends in the frame of a call as it does in the
frame of the procedure. The name is undefined there just if no frame from that one outwards binds
it. -/
theorem missing_argument_looked_up_outside (depth : Nat) (names : List String) (args : List Value)
    {s : Store} {outer : FrameId} (houter : outer < s.next) {n : String}
    (hmissing : ∀ i < args.length, names[i]? ≠ some n) :
    ∃ s', (Eval.extend depth (names.map .symbol) args outer).on s = (.ok s.next, s') ∧
      ((Eval.lookup s.next n).on s').1 = ((Eval.lookup outer n).on s).1 ∧
      ((Eval.lookup s.next n).on s' = (.error (.undefined (.symbol n) n), s') ↔
        ∀ g ∈ s.chain outer, s.binds g n = false) := by
  have hlookup := Store.lookup?_call_of_missing houter hmissing
  have hunbound : s.lookup? outer n = none ↔ ∀ g ∈ s.chain outer, s.binds g n = false := by
    simp [Store.lookup?_eq_findSome?_chain, Store.binds]
  refine ⟨_, Eval.on_extend depth names args outer s, ?_, ?_⟩
  · rw [Eval.on_lookup, Eval.on_lookup, hlookup]
    cases s.lookup? outer n <;> rfl
  · rw [Eval.on_lookup, hlookup, ← hunbound]
    cases s.lookup? outer n <;> simp

/-- A formal that the session does not bind is undefined in a call that gives it no argument. -/
theorem missing_argument_undefined :
    globalFrame < start.next ∧ (∀ i < [Value.yes].length, ["a", "b"][i]? ≠ some "b") ∧
      (∀ g ∈ start.chain globalFrame, start.binds g "b" = false) ∧
      ∃ s', (Eval.extend 9 (["a", "b"].map .symbol) [.yes] globalFrame).on start =
          (.ok start.next, s') ∧
        (Eval.lookup start.next "b").on s' = (.error (.undefined (.symbol "b") "b"), s') := by
  have hmissing : ∀ i < [Value.yes].length, ["a", "b"][i]? ≠ some "b" := by decide
  have hunbound : ∀ g ∈ start.chain globalFrame, start.binds g "b" = false := by decide +kernel
  obtain ⟨s', hextend, -, hiff⟩ :=
    missing_argument_looked_up_outside 9 ["a", "b"] [.yes] start_sound.globalFrame_lt hmissing
  exact ⟨start_sound.globalFrame_lt, hmissing, hunbound, s', hextend, hiff.2 hunbound⟩

/-- The expression `(lambda (a pi) pi)`. -/
def Value.sampleSecond : Value :=
  .list [.symbol "lambda", .list [.symbol "a", .symbol "pi"], .symbol "pi"]

theorem sampleSecond_evaluates :
    (evalText 9 "(lambda (a pi) pi)").on start =
      (.ok (.procedure [.symbol "a", .symbol "pi"] (.symbol "pi") globalFrame), start) := by
  have hread : parseAll 9 "(lambda (a pi) pi)" = .ok [.sampleSecond] := by
    rw [parseAll_eq_scan]
    rfl
  have hname : start.lookup? globalFrame "lambda" = some (.builtin .lambda) :=
    start_lookup?_name .lambda
  rw [evalText_eq_evalAll hread]
  simp only [evalAll, List.foldlM_cons, List.foldlM_nil, Value.sampleSecond, eval, Eval.on_bind,
    Eval.on_lookup, hname]
  rfl

/-- A formal without an argument need not be undefined: in a fresh session, a procedure that has
`pi` as its second formal finds the constant when it is given one argument. -/
theorem missing_argument_not_always_undefined :
    ¬ ∀ (bound : Nat) (commands : List Command) (source : String) (names : List String)
      (body : Value) (outer : FrameId) (s : Store) (args : List Value) (n : String),
      (evalText bound source).on (after bound commands) =
        (.ok (.procedure (names.map .symbol) body outer), s) →
      args.length < names.length → n ∈ names → (∀ i < args.length, names[i]? ≠ some n) →
      ∃ g s', (Eval.extend bound (names.map .symbol) args outer).on s = (.ok g, s') ∧
        (Eval.lookup g n).on s' = (.error (.undefined (.symbol n) n), s') := by
  intro hclaim
  have hmissing : ∀ i < [Value.yes].length, ["a", "pi"][i]? ≠ some "pi" := by decide
  obtain ⟨g, s', hextend, hundefined⟩ := hclaim 9 [] "(lambda (a pi) pi)" ["a", "pi"] (.symbol "pi")
    globalFrame start [.yes] "pi" sampleSecond_evaluates (by decide) (by decide) hmissing
  cases (Eval.on_extend 9 ["a", "pi"] [.yes] globalFrame start).symm.trans hextend
  have hpi : start.lookup? globalFrame "pi" = some (.number 3.141592653589793) := by
    rw [Store.lookup?, Store.find?]
    rfl
  rw [Eval.on_lookup, Store.lookup?_call_of_missing start_sound.globalFrame_lt hmissing, hpi]
    at hundefined
  cases hundefined

end Lisplet
