import Lisplet.Proofs.Limits

/-! The two drivers of a session. A source text is read and evaluated one expression at a time; a
line is read as a whole before any of it is evaluated, and its values are written. On a line that
can be read the two do the same: they evaluate the same expressions up to the first that fails, and
leave the same store. A line that cannot be read is reported and has no other effect. -/

namespace Lisplet

namespace Session

section Global

variable {bound : Nat} {s s' : Store} {e : Value}

theorem Sound.of_value (hs : Sound s) (he : e.WellFormed 0) {v : Value}
    (hrun : (eval bound globalFrame e).on s = (.ok v, s')) : Sound s' ∧ v.WellFormed s'.next := by
  have hsafe := eval_global hs he bound
  unfold Eval.Safe Eval.Ends at hsafe
  rw [hrun] at hsafe
  exact ⟨hs.leads hsafe.1, hsafe.2⟩

theorem Sound.reports_fault (hs : Sound s) (he : e.WellFormed 0) {fault : Fault}
    (hrun : (eval bound globalFrame e).on s = (.error fault, s')) : fault.isReported = true := by
  have hsafe := eval_global hs he bound
  unfold Eval.Safe Eval.Ends at hsafe
  rw [hrun] at hsafe
  exact hsafe.2.reported

end Global

/-- Expressions that are evaluated one after another, each without a fault: their values, and the
store at the end. -/
inductive Yields (bound : Nat) : Store → List Value → List Value → Store → Prop where
  | nil (s : Store) : Yields bound s [] [] s
  | cons {s s' s'' : Store} {e v : Value} {es vs : List Value}
      (h : (eval bound globalFrame e).on s = (.ok v, s')) (hs : Yields bound s' es vs s'') :
      Yields bound s (e :: es) (v :: vs) s''

/-- Expressions are evaluated to the end, or up to the first that fails. -/
theorem yields_or_fails (bound : Nat) (es : List Value) (s : Store) :
    (∃ vs s', Yields bound s es vs s') ∨
      ∃ done e rest vs s₁ fault s', es = done ++ e :: rest ∧ Yields bound s done vs s₁ ∧
        (eval bound globalFrame e).on s₁ = (.error fault, s') := by
  induction es generalizing s with
  | nil => exact .inl ⟨[], s, .nil s⟩
  | cons e es ih =>
    rcases hrun : (eval bound globalFrame e).on s with ⟨fault | v, s₁⟩
    · exact .inr ⟨[], e, es, [], s, fault, s₁, rfl, .nil s, hrun⟩
    · rcases ih s₁ with ⟨vs, s', hvs⟩ | ⟨done, e', rest, vs, s₂, fault, s', rfl, hvs, hfault⟩
      · exact .inl ⟨v :: vs, s', .cons hrun hvs⟩
      · exact .inr ⟨e :: done, e', rest, v :: vs, s₂, fault, s', rfl, .cons hrun hvs, hfault⟩

theorem Yields.sound {bound : Nat} {s s' : Store} {es vs : List Value}
    (h : Yields bound s es vs s') (hs : Sound s) (hes : ∀ e ∈ es, e.WellFormed 0) : Sound s' := by
  induction h with
  | nil => exact hs
  | cons hrun _ ih =>
    obtain ⟨hs', -⟩ := hs.of_value (hes _ (by simp)) hrun
    exact ih hs' fun e he => hes e (by simp [he])

/-- Evaluates expressions in order, after the value `last`, and gives the last value. -/
def evalAll (bound : Nat) (last : Value) (es : List Value) : Eval Value :=
  es.foldlM (fun _ e => eval bound globalFrame e) last

theorem Yields.evalAll_on {bound : Nat} {s s' : Store} {es vs : List Value}
    (h : Yields bound s es vs s') (last : Value) (rest : List Value) :
    (evalAll bound last (es ++ rest)).on s = (evalAll bound (vs.getLastD last) rest).on s' := by
  induction h generalizing last with
  | nil s => rfl
  | @cons s s' s'' e v es vs hrun _ ih =>
    have hcons : evalAll bound last (e :: es ++ rest) =
        eval bound globalFrame e >>= fun v => evalAll bound v (es ++ rest) := List.foldlM_cons
    rw [hcons, Eval.on_bind, hrun]
    simp only [ih v, List.getLastD_cons]

/-- Tokens that can be read are evaluated like the expressions that they stand for. -/
theorem evalTokens_eq_evalAll {bound : Nat} {ts : List Token} {read es : List Value}
    {ps : List Reader.Pending} (h : (Reader.readAllFrom bound read ps ts).1 = .ok es) :
    ∃ fs, es = read.reverse ++ fs ∧
      ∀ last, evalTokens bound none last ps ts = evalAll bound last fs := by
  induction ts generalizing read ps with
  | nil =>
    cases ps with
    | nil =>
      obtain rfl : read.reverse = es := by simpa [Reader.readAllFrom] using h
      exact ⟨[], by simp, fun _ => rfl⟩
    | cons p ps => simp [Reader.readAllFrom] at h
  | cons t ts ih =>
    rw [Reader.readAllFrom] at h
    cases haccept : Reader.accept bound ps t with
    | error e => simp [haccept] at h
    | ok r =>
      rw [haccept] at h
      cases r with
      | more ps' =>
        obtain ⟨fs, hes, hfs⟩ := ih h
        exact ⟨fs, hes, fun last => by simp only [evalTokens, haccept, hfs]⟩
      | done e =>
        obtain ⟨fs, hes, hfs⟩ := ih h
        refine ⟨e :: fs, by simpa using hes, fun last => ?_⟩
        simp only [evalTokens, haccept, hfs, evalAll, List.foldlM_cons]

/-- A text that can be read is evaluated like the expressions in it. -/
theorem evalText_eq_evalAll {bound : Nat} {source : String} {es : List Value}
    (h : parseAll bound source = .ok es) : evalText bound source = evalAll bound .unit es := by
  rw [parseAll_eq] at h
  obtain ⟨fs, rfl, hfs⟩ := evalTokens_eq_evalAll h
  rw [evalText_eq]
  exact hfs .unit

end Session

namespace Transcript

open Session

/-- The expressions whose evaluation was begun, in order. -/
def begun (es : List Event) : List Value :=
  es.filterMap fun | .notice (.evaluating e) => some e | _ => none

/-- The events of expressions that were evaluated and whose values were written. -/
def resultEvents (es vs : List Value) : List Event :=
  (es.zip vs).flatMap fun (e, v) => [.notice (.evaluating e), result v.text]

/-- What is to be seen of a line: how it ends, the expressions of which the evaluation was begun,
the values of which the texts were written as results, the reports, and the store that it leaves. -/
structure Shows (r : LineRun) (ended : LineEnd) (es vs : List Value) (reports : List String)
    (s' : Store) : Prop where
  ended : r.ended = ended
  begun : begun r.events = es
  outs : outs r.events = vs.map fun v => "Result: " ++ v.text ++ "\n"
  errs : errs r.events = reports
  store : r.store = s'

variable {bound : Nat} {line : String} {s s' : Store} {es vs : List Value}

/-- The value of an expression that does not meet the bound is written. -/
theorem evalToText_on {e v : Value} (hv : v.WellFormed s'.next)
    (hrun : (eval bound globalFrame e).on s = (.ok v, s'))
    (hquiet : ¬ (evalToText bound e).Exhausts s) :
    (evalToText bound e).on s = (.ok v.text, s') := by
  have htext : (evalToText bound e).on s = (Eval.displayed bound v).on s' := by
    rw [evalToText, Eval.on_bind, hrun]
  unfold Eval.Exhausts at hquiet
  rw [htext] at hquiet ⊢
  unfold Eval.displayed at hquiet ⊢
  cases hobstacle : v.obstacle? bound with
  | none => simp [Value.display, hobstacle]
  | some o =>
    cases o with
    | tooDeep => simp [Value.display, hobstacle, Fault.isExhaustion] at hquiet
    | tooLarge => exact absurd hobstacle (hv.obstacle?_ne_tooLarge bound)

/-- The values of expressions at the beginning of a line are written, and the line goes on. -/
theorem runValues_of_yields (h : Yields bound s es vs s') (hs : Session.Sound s)
    (hes : ∀ e ∈ es, e.WellFormed 0) (rest : List Value)
    (hquiet : exhausted (runValues bound line (es ++ rest) s).events = false) :
    runValues bound line (es ++ rest) s =
      { runValues bound line rest s' with
        events := resultEvents es vs ++ (runValues bound line rest s').events } := by
  induction h with
  | nil s => rfl
  | @cons s s₁ s' e v es vs hrun _ ih =>
    obtain ⟨hs₁, hv⟩ := hs.of_value (hes e (by simp)) hrun
    have htext := evalToText_on hv hrun (not_exhausts_of_quiet hquiet)
    rw [List.cons_append, runValues, htext] at hquiet ⊢
    simp only [exhausted, List.any_cons, Bool.or_eq_false_iff] at hquiet
    have hrest := ih hs₁ (fun e he => hes e (by simp [he])) hquiet.2.2
    simp only [hrest]
    rfl

theorem resultEvents_views (h : Yields bound s es vs s') :
    begun (resultEvents es vs) = es ∧
      outs (resultEvents es vs) = vs.map (fun v => "Result: " ++ v.text ++ "\n") ∧
      errs (resultEvents es vs) = [] := by
  induction h with
  | nil s => exact ⟨rfl, rfl, rfl⟩
  | @cons _ _ _ e v es vs _ _ ih =>
    obtain ⟨hbegun, houts, herrs⟩ := ih
    exact ⟨congrArg (e :: ·) hbegun, congrArg (_ :: ·) houts, herrs⟩

theorem shows_of_yields (h : Yields bound s es vs s') (hs : Session.Sound s)
    (hes : ∀ e ∈ es, e.WellFormed 0)
    (hquiet : exhausted (runValues bound line es s).events = false) :
    Shows (runValues bound line es s) .passed es vs [] s' := by
  obtain ⟨hbegun, houts, herrs⟩ := resultEvents_views h
  have hrun := runValues_of_yields h hs hes [] (by simpa using hquiet)
  simp only [List.append_nil, runValues] at hrun
  rw [hrun]
  exact ⟨rfl, hbegun, houts, herrs, rfl⟩

/-- The first expression of a line that fails is reported, and nothing after it is evaluated. -/
theorem shows_of_fault {e : Value} {rest : List Value} {s₁ : Store} {fault : Fault}
    (h : Yields bound s es vs s₁) (hfault : (eval bound globalFrame e).on s₁ = (.error fault, s'))
    (hs : Session.Sound s) (hes : ∀ e' ∈ es ++ e :: rest, e'.WellFormed 0)
    (hquiet : exhausted (runValues bound line (es ++ e :: rest) s).events = false) :
    Shows (runValues bound line (es ++ e :: rest) s) .failed (es ++ [e]) vs
      ["Eval Error: " ++ fault.message ++ "\n"] s' := by
  obtain ⟨hbegun, houts, herrs⟩ := resultEvents_views h
  have hdone : ∀ e' ∈ es, e'.WellFormed 0 := fun e' he' => hes e' (by simp [he'])
  have hreported := (h.sound hs hdone).reports_fault (hes e (by simp)) hfault
  have hlast : runValues bound line (e :: rest) s₁ =
      ⟨.notice (.evaluating e) :: evalReport line fault, .failed, s'⟩ := by
    rw [runValues, evalToText, Eval.on_bind, hfault]
    simp only [hreported, ↓reduceIte]
  rw [runValues_of_yields h hs hdone (e :: rest) hquiet, hlast]
  refine ⟨rfl, ?_, ?_, ?_, rfl⟩
  · rw [begun, List.filterMap_append]
    exact congrArg (· ++ [e]) hbegun
  · rw [outs_append, houts]
    exact List.append_nil _
  · rw [errs_append, herrs]
    rfl

/-- The two drivers agree. A line that cannot be read is reported, and has no other effect. On one
that can be read, nothing being exhausted, the line and the text leave the same store, and they end
in one of two ways. Either all expressions have values, which are written in order, and the last is
the value of the text; or there is a first expression that fails, with the fault of the text, and
then the values before it are written, the fault is reported, and nothing else is evaluated. -/
theorem runLine_agrees_with_evalText (bound : Nat) (commands : List Command) (line : String) :
    (∀ cause, parseAll bound line = .error cause →
      Shows (runLine bound line (after bound commands)) .failed [] []
        ["Parse Error: " ++ cause.message ++ "\n"] (after bound commands)) ∧
    ∀ es, parseAll bound line = .ok es →
      exhausted (runLine bound line (after bound commands)).events = false →
      (evalText bound line).Ends (after bound commands)
        (fun v s' => ∃ vs, Yields bound (after bound commands) es vs s' ∧ v = vs.getLastD .unit ∧
          Shows (runLine bound line (after bound commands)) .passed es vs [] s')
        fun fault s' => ∃ done e rest vs s₁, es = done ++ e :: rest ∧
          Yields bound (after bound commands) done vs s₁ ∧
          (eval bound globalFrame e).on s₁ = (.error fault, s') ∧
          Shows (runLine bound line (after bound commands)) .failed (done ++ [e]) vs
            ["Eval Error: " ++ fault.message ++ "\n"] s' := by
  have hs := after_sound bound commands
  generalize after bound commands = s at hs ⊢
  refine ⟨fun cause hcause => ?_, fun es hes hquiet => ?_⟩
  · rw [runLine, hcause]
    exact ⟨rfl, rfl, rfl, rfl, rfl⟩
  · have hwell := parseAll_wellFormed hes
    rw [runLine, hes] at hquiet ⊢
    rw [evalText_eq_evalAll hes]
    unfold Eval.Ends
    rcases yields_or_fails bound es s with
      ⟨vs, s', hvs⟩ | ⟨done, e, rest, vs, s₁, fault, s', rfl, hvs, hfault⟩
    · have hon := hvs.evalAll_on .unit []
      rw [List.append_nil] at hon
      rw [hon]
      exact ⟨vs, hvs, rfl, shows_of_yields hvs hs hwell hquiet⟩
    · have hon : (evalAll bound .unit (done ++ e :: rest)).on s = (.error fault, s') := by
        rw [hvs.evalAll_on, evalAll, List.foldlM_cons, Eval.on_bind, hfault]
      rw [hon]
      exact ⟨done, e, rest, vs, s₁, rfl, hvs, hfault, shows_of_fault hvs hfault hs hwell hquiet⟩

/-- A line with a stray parenthesis after a definition, and one with a fault after a definition. -/
theorem sample_lines_agree :
    parseAll 9 "(define x #t) )" = .error .unexpectedClose ∧
      Shows (runLine 9 "(define x #t) )" (after 9 [])) .failed [] []
        ["Parse Error: Unexpected ')'\n"] (after 9 []) ∧
      parseAll 9 "(define x #t) (x) (define y x)" =
        .ok [.list [.symbol "define", .symbol "x", .symbol "#t"], .list [.symbol "x"],
          .list [.symbol "define", .symbol "y", .symbol "x"]] ∧
      exhausted (runLine 9 "(define x #t) (x) (define y x)" (after 9 [])).events = false ∧
      errs (runLine 9 "(define x #t) (x) (define y x)" (after 9 [])).events =
        ["Eval Error: '#t' is not callable\n"] ∧
      (runLine 9 "(define x #t) (x) (define y x)" (after 9 [])).store =
        ((evalText 9 "(define x #t) (x) (define y x)").on (after 9 [])).2 := by
  have hclose : parseAll 9 "(define x #t) )" = .error .unexpectedClose := by
    rw [parseAll_eq_scan]
    rfl
  have hread : parseAll 9 "(define x #t) (x) (define y x)" =
      .ok [.list [.symbol "define", .symbol "x", .symbol "#t"], .list [.symbol "x"],
        .list [.symbol "define", .symbol "y", .symbol "x"]] := by
    rw [parseAll_eq_scan]
    rfl
  have hquiet :
      exhausted (runLine 9 "(define x #t) (x) (define y x)" (after 9 [])).events = false := by
    decide +kernel
  refine ⟨hclose, (runLine_agrees_with_evalText 9 [] _).1 _ hclose, hread, hquiet,
    by decide +kernel, ?_⟩
  have hends := (runLine_agrees_with_evalText 9 [] "(define x #t) (x) (define y x)").2
  unfold Eval.Ends at hends
  -- The run is named before the hypotheses are supplied, so that it is not evaluated.
  generalize (evalText 9 "(define x #t) (x) (define y x)").on (after 9 []) = run at hends ⊢
  obtain ⟨fault | v, s'⟩ := run
  · obtain ⟨_, _, _, _, _, -, -, -, hshows⟩ := hends _ hread hquiet
    exact hshows.store
  · obtain ⟨_, -, -, hshows⟩ := hends _ hread hquiet
    exact hshows.store

end Transcript

end Lisplet
