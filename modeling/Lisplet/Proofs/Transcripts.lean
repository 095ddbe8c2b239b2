import Lisplet.Proofs.Sessions

/-! Transcripts of runs over lines. What a run writes and what it leaves is accounted for by its
lines, each of them run on the store that the one before left: prompts apart, the run writes what
the lines write, and it counts one failure for each report of a line. A blank line has no tokens, so
it makes no difference that blank lines are passed over. -/

namespace Lisplet

theorem lex_of_isAllBlank {line : String} (h : Text.isAllBlank line = true) : lex line = [] := by
  rw [lex_eq_tokens]
  exact Scanner.tokens_gap_of_all_blank (by simpa [Text.isAllBlank] using h)

def LineEnd.isFailed : LineEnd → Bool
  | .failed => true
  | _ => false

namespace Transcript

variable {prompt line : String} {s : Store}

/-- The texts written to the output, in order. -/
def outs (es : List Event) : List String :=
  es.filterMap fun | .out t => some t | _ => none

/-- The texts written to the error output, in order. -/
def errs (es : List Event) : List String :=
  es.filterMap fun | .err t => some t | _ => none

@[simp] theorem outs_append (es fs : List Event) : outs (es ++ fs) = outs es ++ outs fs :=
  List.filterMap_append

@[simp] theorem errs_append (es fs : List Event) : errs (es ++ fs) = errs es ++ errs fs :=
  List.filterMap_append

theorem outText_eq (es : List Event) : outText es = String.join (outs es) := by
  induction es with
  | nil => rfl
  | cons e es ih =>
    simp only [outText, outs] at ih
    cases e <;> simp [outText, outs, ih]

theorem errText_eq (es : List Event) : errText es = String.join (errs es) := by
  induction es with
  | nil => rfl
  | cons e es ih =>
    simp only [errText, errs] at ih
    cases e <;> simp [errText, errs, ih]

@[simp] theorem outText_append (es fs : List Event) :
    outText (es ++ fs) = outText es ++ outText fs := by
  simp [outText_eq]

@[simp] theorem outText_promptEvents (prompt : String) :
    outText (promptEvents prompt) = prompt := by
  unfold promptEvents
  split
  · rename_i h
    simpa [outText] using (String.isEmpty_iff.1 h).symm
  · simp [outText]

@[simp] theorem errs_promptEvents (prompt : String) : errs (promptEvents prompt) = [] := by
  unfold promptEvents
  split <;> rfl

/-- A blank line does nothing. -/
theorem runLine_of_isAllBlank (h : Text.isAllBlank line = true) (bound : Nat) (s : Store) :
    runLine bound line s = ⟨[], .passed, s⟩ := by
  have hparse : parseAll bound line = .ok [] := by
    simp [parseAll_eq, lex_of_isAllBlank h, Reader.readAllFrom]
  simp [runLine, hparse, runValues]

/-- Passing over blank lines is running them. -/
theorem feed_cons (bound : Nat) (prompt line : String) (lines : List String) (failures : Nat)
    (s : Store) :
    feed bound prompt (line :: lines) failures s =
      let r := runLine bound line s
      let rest (failures : Nat) := feed bound prompt lines failures r.store
      let continued (run : Run) : Run :=
        { run with events := r.events ++ promptEvents prompt ++ run.events }
      match r.ended with
      | .passed => continued (rest failures)
      | .failed => continued (rest (failures + 1))
      | .broken fault => ⟨r.events, .error fault, r.store⟩ := by
  have hskip : (if Text.isAllBlank line then ⟨[], .passed, s⟩ else runLine bound line s) =
      runLine bound line s := by
    split
    · rename_i hblank
      exact (runLine_of_isAllBlank hblank bound s).symm
    · rfl
  cases hended : (runLine bound line s).ended <;> simp only [feed, hskip, hended]

/-- The runs of single lines, blank ones like all others, each on the store that the one before
left. -/
def runEach (bound : Nat) : List String → Store → List LineRun
  | [], _ => []
  | line :: lines, s =>
    let r := runLine bound line s
    r :: runEach bound lines r.store

/-- The store after single lines. -/
def storeAfter (bound : Nat) (lines : List String) (s : Store) : Store :=
  lines.foldl (fun s line => (runLine bound line s).store) s

/-- The count of failed lines. -/
def countFailed (each : List LineRun) : Nat :=
  each.countP fun r => r.ended.isFailed

theorem storeAfter_append (bound : Nat) (lines more : List String) (s : Store) :
    storeAfter bound (lines ++ more) s = storeAfter bound more (storeAfter bound lines s) :=
  List.foldl_append

theorem runEach_append (bound : Nat) (lines more : List String) (s : Store) :
    runEach bound (lines ++ more) s =
      runEach bound lines s ++ runEach bound more (storeAfter bound lines s) := by
  induction lines generalizing s with
  | nil => rfl
  | cons line lines ih =>
    simp only [List.cons_append, runEach, ih]
    rfl

/-- A run over lines is made of the runs of the single lines. -/
theorem feed_eq (hs : Session.Sound s) (bound : Nat) (prompt : String) (lines : List String)
    (failures : Nat) :
    feed bound prompt lines failures s =
      ⟨(runEach bound lines s).flatMap fun r => r.events ++ promptEvents prompt,
        .ok (failures + countFailed (runEach bound lines s)), storeAfter bound lines s⟩ := by
  induction lines generalizing failures s with
  | nil => rfl
  | cons line lines ih =>
    have hline := runLine_sound bound line hs
    rw [feed_cons]
    rcases hline.ended with hended | hended
    · simp only [hended, ih (hs.leads hline.leads)]
      simp [runEach, storeAfter, countFailed, LineEnd.isFailed, hended]
    · simp only [hended, ih (hs.leads hline.leads)]
      simp [runEach, storeAfter, countFailed, LineEnd.isFailed, hended]
      omega

theorem errs_runValues (bound : Nat) (line : String) (es : List Value) (s : Store) :
    (errs (runValues bound line es s).events).length =
      if (runValues bound line es s).ended.isFailed then 1 else 0 := by
  induction es generalizing s with
  | nil => rfl
  | cons e es ih =>
    rw [runValues]
    split
    · rename_i text s' _
      exact ih s'
    · split <;> rfl

/-- A line that fails is reported once, and one that does not is not. -/
theorem errs_runLine (bound : Nat) (line : String) (s : Store) :
    (errs (runLine bound line s).events).length =
      if (runLine bound line s).ended.isFailed then 1 else 0 := by
  unfold runLine
  split
  · rfl
  · exact errs_runValues bound line _ s

theorem errs_runEach (bound : Nat) (lines : List String) (s : Store) :
    ((runEach bound lines s).flatMap fun r => errs r.events).length =
      countFailed (runEach bound lines s) := by
  induction lines generalizing s with
  | nil => rfl
  | cons line lines ih =>
    have hline := errs_runLine bound line s
    have hrest := ih (runLine bound line s).store
    simp only [countFailed, runEach, List.flatMap_cons, List.length_append, List.countP_cons]
      at hrest ⊢
    rw [hline, hrest, Nat.add_comm]

/-- A run over lines that is accounted for by runs of single lines and leaves the store `s'`: the
output has a prompt first and after what each line wrote, the error output has the reports of the
lines, and the failures are the failed lines, which are as many as the reports. -/
structure Accounted (prompt : String) (each : List LineRun) (s' : Store) (run : Run) : Prop where
  out : outText run.events = prompt ++ String.join (each.map fun r => outText r.events ++ prompt)
  err : errText run.events = String.join (each.map fun r => errText r.events)
  store : run.store = s'
  failures : run.failures = .ok (countFailed each)
  reports : (errs run.events).length = countFailed each

theorem outText_flatMap (each : List LineRun) (prompt : String) :
    outText (each.flatMap fun r => r.events ++ promptEvents prompt) =
      String.join (each.map fun r => outText r.events ++ prompt) := by
  induction each with
  | nil => rfl
  | cons r each ih => simp [ih, String.append_assoc]

theorem errs_flatMap (each : List LineRun) (prompt : String) :
    errs (each.flatMap fun r => r.events ++ promptEvents prompt) =
      each.flatMap fun r => errs r.events := by
  induction each with
  | nil => rfl
  | cons r each ih => simp [ih]

theorem join_errs (each : List LineRun) :
    String.join (each.flatMap fun r => errs r.events) =
      String.join (each.map fun r => errText r.events) := by
  induction each with
  | nil => rfl
  | cons r each ih => simp [ih, errText_eq]

theorem runLines_accounted (hs : Session.Sound s) (bound : Nat) (prompt : String)
    (lines : List String) :
    Accounted prompt (runEach bound lines s) (storeAfter bound lines s)
      (runLines bound prompt lines s) := by
  have hrun : runLines bound prompt lines s =
      ⟨promptEvents prompt ++ ((runEach bound lines s).flatMap fun r =>
          r.events ++ promptEvents prompt) ++ [.notice (.finished (countFailed
            (runEach bound lines s)))],
        .ok (countFailed (runEach bound lines s)), storeAfter bound lines s⟩ := by
    rw [runLines, feed_eq hs]
    simp
  have herrs : errs (runLines bound prompt lines s).events =
      (runEach bound lines s).flatMap fun r => errs r.events := by
    rw [hrun, errs_append, errs_append, errs_promptEvents, errs_flatMap]
    exact List.append_nil _
  refine ⟨?_, ?_, by rw [hrun], by rw [hrun], ?_⟩
  · rw [hrun, outText_append, outText_append, outText_promptEvents, outText_flatMap]
    exact String.append_empty
  · rw [errText_eq, herrs, join_errs]
  · rw [herrs, errs_runEach]

/-- A run over lines that stands for two runs over lines, one after the other: the second starts
with a prompt of its own, and apart from that the three agree. -/
structure Joins (prompt : String) (first second joined : Run) : Prop where
  out : ∃ rest, outText second.events = prompt ++ rest ∧
    outText joined.events = outText first.events ++ rest
  err : errText joined.events = errText first.events ++ errText second.events
  store : joined.store = second.store
  failures : ∃ n m, first.failures = .ok n ∧ second.failures = .ok m ∧
    joined.failures = .ok (n + m)

theorem Accounted.joins {each more : List LineRun} {s₁ s₂ : Store} {first second joined : Run}
    (h₁ : Accounted prompt each s₁ first) (h₂ : Accounted prompt more s₂ second)
    (h : Accounted prompt (each ++ more) s₂ joined) : Joins prompt first second joined := by
  refine ⟨⟨_, h₂.out, ?_⟩, ?_, h.store.trans h₂.store.symm,
    countFailed each, countFailed more, h₁.failures, h₂.failures, ?_⟩
  · rw [h.out, h₁.out]
    simp [String.append_assoc]
  · rw [h.err, h₁.err, h₂.err]
    simp
  · rw [h.failures]
    simp [countFailed]

/-- The transcript of a session's lines. A run over lines is accounted for by the single lines, run
one after another and the blank ones like all others. So the prompt has no influence on the error
output, the failures and the store, and a run over more lines is this run and then another one on
the store that it leaves. -/
theorem runLines_transcript (bound : Nat) (commands : List Session.Command) (prompt : String)
    (lines : List String) :
    Accounted prompt (runEach bound lines (Session.after bound commands))
      (storeAfter bound lines (Session.after bound commands))
      (runLines bound prompt lines (Session.after bound commands)) ∧
    (∀ other,
      errText (runLines bound other lines (Session.after bound commands)).events =
        errText (runLines bound prompt lines (Session.after bound commands)).events ∧
      (runLines bound other lines (Session.after bound commands)).failures =
        (runLines bound prompt lines (Session.after bound commands)).failures ∧
      (runLines bound other lines (Session.after bound commands)).store =
        (runLines bound prompt lines (Session.after bound commands)).store) ∧
    ∀ more,
      Joins prompt (runLines bound prompt lines (Session.after bound commands))
        (runLines bound prompt more
          (runLines bound prompt lines (Session.after bound commands)).store)
        (runLines bound prompt (lines ++ more) (Session.after bound commands)) := by
  have hs := Session.after_sound bound commands
  generalize Session.after bound commands = s at hs ⊢
  have hrun := runLines_accounted hs bound prompt lines
  refine ⟨hrun, fun other => ?_, fun more => ?_⟩
  · have hother := runLines_accounted hs bound other lines
    exact ⟨hother.err.trans hrun.err.symm, hother.failures.trans hrun.failures.symm,
      hother.store.trans hrun.store.symm⟩
  · have hjoined := runLines_accounted hs bound prompt (lines ++ more)
    have hs' := hs.leads (runLines_sound bound prompt lines hs).1
    rw [runEach_append, storeAfter_append] at hjoined
    rw [hrun.store] at hs' ⊢
    exact hrun.joins (runLines_accounted hs' bound prompt more) hjoined

end Transcript

end Lisplet
