import Lisplet.Proofs.Coupling
import Lisplet.Proofs.Incomplete
import Lisplet.Proofs.Transcripts

/-! Limits of depth. Reading, evaluating and displaying are bounded in depth, and all that a bound
does is to end some of them with a fault of exhaustion. Whatever ends without such a fault under one
bound ends in the same way, and leaves the same store, under every larger one. A run over lines goes
the same way as long as no line is reported to have exhausted the bound. -/

namespace Lisplet

/-- Evaluations on one store, the first of which may meet its bound. -/
def Coupling.deeper : Coupling where
  Stores s t := t = s
  Code _ := True
  Excused fault := fault.isExhaustion = true
  item _ _ := trivial
  body _ := trivial
  lookup h _ f := by rw [h]
  value _ _ _ v _ := by cases v <;> trivial
  define h _ f n := by rw [h]
  next h := by rw [h]
  push h o := by rw [h]

theorem Coupling.deeper_deepens {shallow deep : Nat} (hle : shallow ≤ deep) :
    deeper.Deepens shallow deep :=
  ⟨hle, fun _ _ h => h⟩

namespace Eval

variable {α : Type}

/-- Run from `s`, a computation meets the bound on depth. -/
def Exhausts (act : Eval α) (s : Store) : Prop :=
  ∃ fault, (act.on s).1 = .error fault ∧ fault.isExhaustion = true

theorem Follows.on_eq {x y : Eval α} {P : α → Prop} (h : Follows .deeper x y P) {s : Store}
    (hx : ¬ x.Exhausts s) : y.on s = x.on s := by
  rcases h s s rfl with hexhausts | ⟨hstore, hout, -⟩
  · exact absurd hexhausts hx
  · exact Prod.ext hout hstore

end Eval

variable {shallow deep : Nat}

open Eval

theorem Session.evalTokens_follows (hle : shallow ≤ deep) (last : Value)
    (ps : List Reader.Pending) (ts : List Token) :
    Follows .deeper (evalTokens shallow none last ps ts) (evalTokens deep none last ps ts)
      fun _ => True := by
  induction ts generalizing last ps with
  | nil =>
    cases ps with
    | nil => exact follows_pure trivial
    | cons p ps => exact follows_throw _
  | cons t ts ih =>
    rw [evalTokens, evalTokens]
    rcases Reader.accept_mono hle ps t with hdeep | hsame
    · rw [hdeep]
      exact follows_excused rfl _
    · rw [← hsame]
      cases Reader.accept shallow ps t with
      | error e => exact follows_throw _
      | ok r =>
        cases r with
        | more ps' => exact ih last ps'
        | done e =>
          exact follows_bind (eval_inStep (Coupling.deeper_deepens hle) globalFrame e trivial)
            fun v _ => ih v []

theorem Session.evalText_follows (hle : shallow ≤ deep) (source : String) :
    Follows .deeper (evalText shallow source) (evalText deep source) fun _ => True := by
  rw [evalText_eq, evalText_eq]
  exact evalTokens_follows hle .unit [] (lex source)

theorem Fault.isReported_of_isExhaustion (fault : Fault) (h : fault.isExhaustion = true) :
    fault.isReported = true := by
  cases fault with
  | undisplayable o =>
    cases o with
    | tooDeep => rfl
    | tooLarge => simp [isExhaustion] at h
  | notEvaluable | listAsName | tooLarge => simp [isExhaustion] at h
  | _ => rfl

/-- Whether a notice tells that a bound on depth was met. -/
def Notice.isExhaustion : Notice → Bool
  | unreadable _ .tooDeep => true
  | failed _ fault => fault.isExhaustion
  | _ => false

namespace Transcript

/-- Whether a line was reported to have met the bound on depth. -/
def exhausted (es : List Event) : Bool :=
  es.any fun | .notice n => n.isExhaustion | _ => false

@[simp] theorem exhausted_append (es fs : List Event) :
    exhausted (es ++ fs) = (exhausted es || exhausted fs) :=
  List.any_append

theorem evalToText_follows (hle : shallow ≤ deep) (e : Value) :
    Follows .deeper (evalToText shallow e) (evalToText deep e) fun _ => True := by
  have hdeep := Coupling.deeper_deepens hle
  exact follows_bind (eval_inStep hdeep _ e trivial) fun v _ => follows_displayed hdeep v

/-- If no exhaustion is reported, the first expression of a line does not meet the bound. -/
theorem not_exhausts_of_quiet {bound : Nat} {line : String} {e : Value} {es : List Value}
    {s : Store} (h : exhausted (runValues bound line (e :: es) s).events = false) :
    ¬ (evalToText bound e).Exhausts s := by
  rintro ⟨fault, hfault, hdeep⟩
  rw [runValues] at h
  generalize (evalToText bound e).on s = run at h hfault
  obtain ⟨out, s'⟩ := run
  obtain rfl : out = .error fault := hfault
  simp [exhausted, evalReport, Notice.isExhaustion, hdeep, fault.isReported_of_isExhaustion] at h

theorem runValues_deeper (hle : shallow ≤ deep) (line : String) {es : List Value} {s : Store}
    (h : exhausted (runValues shallow line es s).events = false) :
    runValues deep line es s = runValues shallow line es s := by
  induction es generalizing s with
  | nil => rfl
  | cons e es ih =>
    rw [runValues, runValues, (evalToText_follows hle e).on_eq (not_exhausts_of_quiet h)]
    rw [runValues] at h
    generalize (evalToText shallow e).on s = run at h ⊢
    obtain ⟨fault | text, s'⟩ := run
    · rfl
    · simp only [exhausted, List.any_cons, Bool.or_eq_false_iff] at h
      simp only [ih h.2.2]

theorem runLine_deeper (hle : shallow ≤ deep) {line : String} {s : Store}
    (h : exhausted (runLine shallow line s).events = false) :
    runLine deep line s = runLine shallow line s := by
  rcases parseAll_mono hle line with hdeep | hsame
  · simp [runLine, hdeep, readReport, exhausted, Notice.isExhaustion] at h
  · unfold runLine at h ⊢
    rw [← hsame]
    cases hparse : parseAll shallow line with
    | error cause => rfl
    | ok es =>
      rw [hparse] at h
      exact runValues_deeper hle line h

theorem feed_deeper (hle : shallow ≤ deep) (prompt : String) {lines : List String} {failures : Nat}
    {s : Store} (h : exhausted (feed shallow prompt lines failures s).events = false) :
    feed deep prompt lines failures s = feed shallow prompt lines failures s := by
  induction lines generalizing failures s with
  | nil => rfl
  | cons line lines ih =>
    rw [feed_cons] at h
    rw [feed_cons, feed_cons]
    have hline : exhausted (runLine shallow line s).events = false := by
      cases hended : (runLine shallow line s).ended <;> simp [hended] at h
      · exact h.1
      · exact h.1
      · exact h
    simp only [runLine_deeper hle hline]
    cases hended : (runLine shallow line s).ended with
    | passed =>
      simp only [hended, exhausted_append, Bool.or_eq_false_iff] at h ⊢
      rw [ih h.2]
    | failed =>
      simp only [hended, exhausted_append, Bool.or_eq_false_iff] at h ⊢
      rw [ih h.2]
    | broken fault => rfl

theorem runLines_deeper (hle : shallow ≤ deep) {prompt : String} {lines : List String} {s : Store}
    (h : exhausted (runLines shallow prompt lines s).events = false) :
    runLines deep prompt lines s = runLines shallow prompt lines s := by
  have hfeed : exhausted (feed shallow prompt lines 0 s).events = false := by
    simp only [runLines, exhausted_append, Bool.or_eq_false_iff] at h
    exact h.1.2
  rw [runLines, runLines, feed_deeper hle prompt hfeed]

end Transcript

open Transcript in
/-- A larger bound on depth removes faults of exhaustion and does nothing else. What does not end
with such a fault under one bound ends in the same way under a larger one: an expression in any
frame and a source text with the same outcome and the same store, a line and a run over lines with
the same transcript, the same failures and the same store. -/
theorem larger_bound_keeps_outcomes {shallow deep : Nat} (hle : shallow ≤ deep) (s : Store) :
    (∀ f e, ¬ (eval shallow f e).Exhausts s →
      (eval deep f e).on s = (eval shallow f e).on s) ∧
    (∀ source, ¬ (Session.evalText shallow source).Exhausts s →
      (Session.evalText deep source).on s = (Session.evalText shallow source).on s) ∧
    (∀ line, exhausted (runLine shallow line s).events = false →
      runLine deep line s = runLine shallow line s) ∧
    ∀ prompt lines, exhausted (runLines shallow prompt lines s).events = false →
      runLines deep prompt lines s = runLines shallow prompt lines s := by
  refine ⟨fun f e h => ?_, fun source h => ?_, fun line h => runLine_deeper hle h,
    fun prompt lines h => runLines_deeper hle h⟩
  · exact (eval_inStep (Coupling.deeper_deepens hle) f e trivial).on_eq h
  · exact (Session.evalText_follows hle source).on_eq h

/-- Lines with a definition, two calls, and a name that is not bound. -/
def Transcript.sampleLines : List String :=
  ["(define f (lambda (x) x))", "(f #t) (f f)", "g"]

open Transcript in
theorem sampleLines_under_larger_bound :
    9 ≤ 5000 ∧
      exhausted (runLines 2 "> " sampleLines Session.start).events = true ∧
      exhausted (runLines 9 "> " sampleLines Session.start).events = false ∧
      errs (runLines 9 "> " sampleLines Session.start).events = ["Eval Error: undefined: g\n"] ∧
      runLines 5000 "> " sampleLines Session.start =
        runLines 9 "> " sampleLines Session.start := by
  have hle : 9 ≤ 5000 := by decide
  have hquiet : exhausted (runLines 9 "> " sampleLines Session.start).events = false := by
    decide +kernel
  exact ⟨hle, by decide +kernel, hquiet, by decide +kernel,
    (larger_bound_keeps_outcomes hle Session.start).2.2.2 "> " sampleLines hquiet⟩

end Lisplet
