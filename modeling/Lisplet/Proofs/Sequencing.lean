import Lisplet.Proofs.Drivers
import Lisplet.Proofs.Settling

/-! Sequences of expressions. `InTurn` says what it is to evaluate expressions one after another in
a frame and to keep the last value. The form that evaluates its operands in sequence does just that,
and so does a text that reads as the same expressions in the global frame. A sequence inside a
sequence can be written out in its place, as long as the name of the form still stands for it when
the inner one is met. Depth is left aside. -/

namespace Lisplet

open Eval Session

/-- Expressions are evaluated one after another in `f`, after the value `last`. They end with the
last value, or with the first fault. -/
inductive InTurn (f : FrameId) : Value → Store → List Value → Except Fault Value × Store → Prop where
  | nil (last : Value) (s : Store) : InTurn f last s [] (.ok last, s)
  | value {last e v : Value} {s s' : Store} {es : List Value} {r : Except Fault Value × Store}
      (h : Settles (eval · f e) s (.ok v, s')) (hs : InTurn f v s' es r) :
      InTurn f last s (e :: es) r
  | fault {last e : Value} {s s' : Store} {es : List Value} {fault : Fault}
      (h : Settles (eval · f e) s (.error fault, s')) :
      InTurn f last s (e :: es) (.error fault, s')

/-- The form that has its operands evaluated in sequence. -/
def Value.sequence (es : List Value) : Value :=
  .list (.symbol "begin" :: es)

section InTurn

variable {f : FrameId} {last : Value} {s : Store} {es : List Value}
  {r : Except Fault Value × Store}

theorem inTurn_cons_iff {e : Value} :
    InTurn f last s (e :: es) r ↔
      (∃ fault s', Settles (eval · f e) s (.error fault, s') ∧ r = (.error fault, s')) ∨
        ∃ v s', Settles (eval · f e) s (.ok v, s') ∧ InTurn f v s' es r := by
  constructor
  · intro h
    cases h with
    | value h hs => exact .inr ⟨_, _, h, hs⟩
    | fault h => exact .inl ⟨_, _, h, rfl⟩
  · rintro (⟨fault, s', h, rfl⟩ | ⟨v, s', h, hs⟩)
    · exact .fault h
    · exact .value h hs

/-- The value at hand is forgotten as soon as there is an expression. -/
theorem inTurn_last (hes : es ≠ []) (last' : Value) :
    InTurn f last s es r ↔ InTurn f last' s es r := by
  obtain ⟨e, es, rfl⟩ := List.exists_cons_of_ne_nil hes
  rw [inTurn_cons_iff, inTurn_cons_iff]

/-- Two lists of expressions, one after the other. -/
theorem inTurn_append_iff {xs ys : List Value} :
    InTurn f last s (xs ++ ys) r ↔
      (∃ fault s', InTurn f last s xs (.error fault, s') ∧ r = (.error fault, s')) ∨
        ∃ v s', InTurn f last s xs (.ok v, s') ∧ InTurn f v s' ys r := by
  constructor
  · intro h
    induction xs generalizing last s with
    | nil => exact .inr ⟨last, s, .nil last s, h⟩
    | cons x xs ih =>
      cases h with
      | value hx hs =>
        rcases ih hs with ⟨fault, s', hxs, hr⟩ | ⟨v, s', hxs, hys⟩
        · exact .inl ⟨fault, s', .value hx hxs, hr⟩
        · exact .inr ⟨v, s', .value hx hxs, hys⟩
      | fault hx => exact .inl ⟨_, _, .fault hx, rfl⟩
  · rintro (⟨fault, s', h, rfl⟩ | ⟨v, s', h, hys⟩)
    · generalize hout : (Except.error fault, s') = out at h
      induction h with
      | nil => cases hout
      | value hx _ ih => exact .value hx (ih hout)
      | fault hx => exact .fault hx
    · generalize hout : (Except.ok v, s') = out at h
      induction h with
      | nil => cases hout; exact hys
      | value hx _ ih => exact .value hx (ih hout)
      | fault => cases hout

/-- The loop that evaluates expressions and keeps the last value. -/
theorem foldlM_isMonotone (f : FrameId) (last : Value) (es : List Value) :
    IsMonotone fun bound => es.foldlM (fun _ e => eval bound f e) last := by
  refine Follows.isMonotone (P := Value.RunsIn Coupling.deeper.Code) fun _ _ hle => ?_
  have hstep := eval_inStep (Coupling.deeper_deepens hle)
  exact follows_foldlM (fun e _ _ => hstep f e trivial) (Coupling.deeper.runsIn_of_code trivial)

theorem settles_foldlM_iff :
    Settles (fun bound => es.foldlM (fun _ e => eval bound f e) last) s r ↔
      InTurn f last s es r := by
  induction es generalizing last s with
  | nil =>
    constructor
    · rintro ⟨-, bound, rfl⟩
      exact .nil last s
    · rintro ⟨⟩
      exact ⟨finished_ok last, 0, rfl⟩
  | cons e es ih =>
    simp only [List.foldlM_cons]
    rw [settles_bind_iff (eval_isMonotone f e) fun v => foldlM_isMonotone f v es, inTurn_cons_iff]
    simp only [ih]

/-- The form ends as its operands do in turn. -/
theorem settles_sequence_iff
    (hname : s.lookup? f "begin" = some (.builtin .sequence)) :
    Settles (eval · f (.sequence es)) s r ↔ InTurn f (.number 0.0) s es r := by
  have hform : ∀ depth, (eval (depth + 1) f (.sequence es)).on s =
      (es.foldlM (fun _ e => eval depth f e) (.number 0.0)).on s := by
    intro depth
    rw [Value.sequence, eval, on_bind, on_lookup, hname]
    rfl
  rw [← settles_foldlM_iff]
  constructor
  · rintro ⟨hfinished, _ | depth, hr⟩
    · rw [← hr] at hfinished
      simp [eval, Fault.isExhaustion] at hfinished
    · exact ⟨hfinished, depth, (hform depth).symm.trans hr⟩
  · rintro ⟨hfinished, depth, hr⟩
    exact ⟨hfinished, depth + 1, (hform depth).trans hr⟩

/-- A text in the global frame ends as its expressions do in turn. -/
theorem settles_evalText_iff {source : String} (h : Reads source (.ok es)) :
    Settles (evalText · source) s r ↔ InTurn globalFrame .unit s es r := by
  obtain ⟨bound, hbound⟩ := h.eventually
  have heq : ∀ deep ≥ bound, evalText deep source =
      es.foldlM (fun _ e => eval deep globalFrame e) .unit :=
    fun deep hle => evalText_eq_evalAll (hbound deep hle)
  have hmono : IsMonotone (evalText · source) :=
    Follows.isMonotone fun _ _ hle => evalText_follows hle source
  rw [← settles_foldlM_iff]
  constructor
  · exact Settles.congr hmono heq
  · exact Settles.congr (foldlM_isMonotone _ _ _) fun deep hle => (heq deep hle).symm

/-- A sequence inside a sequence is written out in its place. -/
theorem inTurn_flatten_iff {xs ys zs : List Value} (hys : ys ≠ [])
    (hxs : ∀ v s', InTurn f last s xs (.ok v, s') →
      s'.lookup? f "begin" = some (.builtin .sequence)) :
    InTurn f last s (xs ++ .sequence ys :: zs) r ↔ InTurn f last s (xs ++ ys ++ zs) r := by
  have hinner : ∀ v s', InTurn f last s xs (.ok v, s') →
      (InTurn f v s' (.sequence ys :: zs) r ↔ InTurn f v s' (ys ++ zs) r) := by
    intro v s' h
    have hform : ∀ r', Settles (eval · f (.sequence ys)) s' r' ↔ InTurn f v s' ys r' :=
      fun r' => (settles_sequence_iff (hxs v s' h)).trans (inTurn_last hys v)
    rw [inTurn_cons_iff, inTurn_append_iff]
    simp only [hform]
  rw [List.append_assoc, inTurn_append_iff, inTurn_append_iff]
  refine or_congr_right (exists_congr fun v => exists_congr fun s' => ?_)
  exact and_congr_right (hinner v s')

end InTurn

/-- Sequencing. Where `begin` stands for its operation, a form `(begin e ...)` with operands ends as
the operands do when they are evaluated in turn, whatever they bind on the way. In the global frame
that is how any text ends that reads as them. A form of this kind inside another may be written out
in its place, if what comes before it fails or leaves `begin` as it was. -/
theorem sequence_settles_in_turn {s : Store} {f : FrameId}
    (hname : s.lookup? f "begin" = some (.builtin .sequence)) :
    (∀ es, es ≠ [] → ∀ last r,
      Settles (eval · f (.sequence es)) s r ↔ InTurn f last s es r) ∧
    (f = globalFrame → ∀ source es, es ≠ [] → Reads source (.ok es) → ∀ r,
      Settles (eval · f (.sequence es)) s r ↔ Settles (evalText · source) s r) ∧
    ∀ xs ys zs, ys ≠ [] →
      (∀ v s', InTurn f .unit s xs (.ok v, s') →
        s'.lookup? f "begin" = some (.builtin .sequence)) → ∀ r,
      Settles (eval · f (.sequence (xs ++ .sequence ys :: zs))) s r ↔
        Settles (eval · f (.sequence (xs ++ ys ++ zs))) s r := by
  have hform : ∀ es, es ≠ [] → ∀ last r,
      Settles (eval · f (.sequence es)) s r ↔ InTurn f last s es r :=
    fun es hes last r => (settles_sequence_iff hname).trans (inTurn_last hes last)
  refine ⟨hform, ?_, fun xs ys zs hys hxs r => ?_⟩
  · rintro rfl source es hes hread r
    rw [hform es hes .unit r, settles_evalText_iff hread]
  · rw [hform _ (by simp) .unit, hform _ (by simp [hys]) .unit]
    exact inTurn_flatten_iff hys hxs

/-- The expression `(define x #t)`. -/
def Value.sampleDefine : Value :=
  .list [.symbol "define", .symbol "x", .symbol "#t"]

/-- The expression `(define begin x)`. -/
def Value.sampleRebind : Value :=
  .list [.symbol "define", .symbol "begin", .symbol "x"]

theorem sampleDefine_settles :
    Settles (eval · globalFrame .sampleDefine) start
      (.ok .unit, start.define globalFrame "x" .yes) := by
  have hname : start.lookup? globalFrame "define" = some (.builtin .define) :=
    start_lookup?_name .define
  have hyes : start.lookup? globalFrame "#t" = some .yes := by
    rw [Store.lookup?, Store.find?]
    rfl
  refine ⟨finished_ok _, 2, ?_⟩
  simp only [Value.sampleDefine, eval, on_bind, on_lookup, hname, apply, applyBuiltin, hyes]
  rfl

/-- A definition as a sequence and as a text, and an inner sequence that binds `begin` anew, after
which `(begin)` is a fault. -/
theorem rebinding_sequence_flattens :
    start.lookup? globalFrame "begin" = some (.builtin .sequence) ∧
      Settles (evalText · "(define x #t)") start (.ok .unit, start.define globalFrame "x" .yes) ∧
      ((eval 9 globalFrame (.sequence ([.sampleDefine] ++
        .sequence [.symbol "x", .sampleRebind] :: [.sequence []]))).on start).1.isOk = false ∧
      Settles (eval · globalFrame (.sequence ([.sampleDefine] ++
        [.symbol "x", .sampleRebind] ++ [.sequence []]))) start
        ((eval 9 globalFrame (.sequence ([.sampleDefine] ++
          .sequence [.symbol "x", .sampleRebind] :: [.sequence []]))).on start) := by
  have hname := start_lookup?_name .sequence
  obtain ⟨hform, htext, hflatten⟩ := sequence_settles_in_turn hname
  refine ⟨hname, ?_, by decide +kernel, ?_⟩
  · have hread : Reads "(define x #t)" (.ok [.sampleDefine]) :=
      ⟨nofun, 9, by rw [parseAll_eq_scan]; rfl⟩
    refine (htext rfl _ _ (by simp) hread _).1 ((hform _ (by simp) .unit _).2 ?_)
    exact .value sampleDefine_settles (.nil _ _)
  · refine (hflatten _ _ _ (by simp) ?_ _).1 ⟨by decide +kernel, 9, rfl⟩
    intro v s' h
    cases h with
    | value hdefine hnil =>
      cases hnil
      obtain ⟨-, rfl⟩ := Prod.mk.inj (hdefine.unique (eval_isMonotone _ _) sampleDefine_settles)
      rw [Store.lookup?, Store.find?]
      rfl

end Lisplet
