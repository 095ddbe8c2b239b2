import Lisplet.Proofs.Computation
import Lisplet.Proofs.Grammar
import Lisplet.Proofs.Loading

/-! Incomplete text and wrong text. A text that ends inside open forms can be completed on the next
line: a value finishes the quotations in front of it, and then each open list is closed. A closing
parenthesis out of place is met before anything that follows, so no continuation can mend it. The
two faults of reading tell these cases apart, and source text leads to no other, read at once or
evaluated on the way. Nesting is left aside throughout. -/

namespace Lisplet.Reader

variable {bound : Nat}

/-- A fault that is met before the end is met whatever follows. -/
theorem readAllFrom_append_of_error {read : List Value} {ps : List Pending} {ts : List Token}
    {e : ReadFault} (h : (readAllFrom bound read ps ts).1 = .error e) (he : e ≠ .unexpectedEnd)
    (us : List Token) : (readAllFrom bound read ps (ts ++ us)).1 = .error e := by
  induction ts generalizing read ps with
  | nil =>
    cases ps with
    | nil => simp [readAllFrom] at h
    | cons p ps =>
      simp only [readAllFrom, Except.error.injEq] at h
      exact absurd h.symm he
  | cons t ts ih =>
    rw [readAllFrom] at h
    rw [List.cons_append, readAllFrom]
    split at h
    · exact ih h
    · exact ih h
    · exact h

/-- Where tokens end inside open forms, reading goes on from there, under any larger bound too. -/
theorem readAllFrom_append_of_end {read : List Value} {ps : List Pending} {ts : List Token}
    (h : (readAllFrom bound read ps ts).1 = .error .unexpectedEnd) :
    ∃ read' ps', ∀ deeper ≥ bound, ∀ us,
      readAllFrom deeper read ps (ts ++ us) = readAllFrom deeper read' ps' us := by
  induction ts generalizing read ps with
  | nil => exact ⟨read, ps, fun deeper _ us => rfl⟩
  | cons t ts ih =>
    rw [readAllFrom] at h
    split at h
    · rename_i v hv
      obtain ⟨read', ps', hgo⟩ := ih h
      refine ⟨read', ps', fun deeper hle us => ?_⟩
      simp only [List.cons_append, readAllFrom, accept_ok_mono hle hv, hgo deeper hle us]
    · rename_i ps₁ hps₁
      obtain ⟨read', ps', hgo⟩ := ih h
      refine ⟨read', ps', fun deeper hle us => ?_⟩
      simp only [List.cons_append, readAllFrom, accept_ok_mono hle hps₁, hgo deeper hle us]
    · rename_i e he
      simp only [Except.error.injEq] at h
      exact absurd (h ▸ he) (accept_ne_unexpectedEnd bound ps t)

theorem readFrom_error {ps : List Pending} {ts : List Token} {e : ReadFault}
    (hkind : ∀ t ∈ ts, ∀ name, t.kind ≠ .other name)
    (h : (readFrom bound ps ts).1 = .error e) :
    e = .tooDeep ∨ e = .unexpectedEnd ∨ e = .unexpectedClose := by
  induction ts generalizing ps with
  | nil =>
    simp only [readFrom, Except.error.injEq] at h
    exact .inr (.inl h.symm)
  | cons t ts ih =>
    rw [readFrom] at h
    split at h
    · simp at h
    · exact ih (fun u hu => hkind u (by simp [hu])) h
    · rename_i e' he
      simp only [Except.error.injEq] at h
      exact (accept_error (hkind t (by simp)) (h ▸ he)).imp_right .inr

/-- The number of lists among open forms. -/
def openLists : List Pending → Nat
  | [] => 0
  | .quoted :: ps => openLists ps
  | .items _ :: ps => openLists ps + 1

/-- A finished value finishes the quotations around it and then stands in the innermost open list,
if there is one. -/
theorem complete_openLists (v : Value) (ps : List Pending) :
    (openLists ps = 0 ∧ ∃ w, complete v ps = .done w) ∨
      ∃ vs ps', complete v ps = .more (.items vs :: ps') ∧ openLists ps = openLists ps' + 1 := by
  induction ps generalizing v with
  | nil => exact .inl ⟨rfl, v, rfl⟩
  | cons p ps ih =>
    cases p with
    | quoted => exact ih v.quotation
    | items vs => exact .inr ⟨v :: vs, ps, rfl, rfl⟩

/-- As many closing parentheses as there are open lists complete what is open, if a list is
innermost. -/
theorem readAllFrom_replicate_close (bound : Nat) (read vs : List Value) (ps : List Pending) :
    ∃ es, (readAllFrom bound read (.items vs :: ps)
      (List.replicate (openLists ps + 1) ⟨.closeParen, ")"⟩)).1 = .ok es := by
  generalize hn : openLists ps = n
  induction n generalizing vs ps with
  | zero =>
    obtain ⟨-, w, hw⟩ | ⟨_, _, -, hlists⟩ := complete_openLists (.list vs.reverse) ps
    · exact ⟨(w :: read).reverse, by simp [readAllFrom, accept, hw]⟩
    · omega
  | succ n ih =>
    obtain ⟨hzero, -⟩ | ⟨vs', ps', hmore, hlists⟩ := complete_openLists (.list vs.reverse) ps
    · omega
    · obtain ⟨es, hes⟩ := ih vs' ps' (by omega)
      refine ⟨es, ?_⟩
      rw [List.replicate_succ, readAllFrom]
      simp only [accept, hmore]
      exact hes

end Lisplet.Reader

namespace Lisplet

open Reader Scanner

/-- What reading all of a text comes to, nesting left aside: the outcome under any bound that the
text does not reach. -/
def Reads (source : String) (r : Except ReadFault (List Value)) : Prop :=
  r ≠ .error .tooDeep ∧ ∃ bound, parseAll bound source = r

theorem parseAll_mono {bound bound' : Nat} (hle : bound ≤ bound') (source : String) :
    parseAll bound source = .error .tooDeep ∨ parseAll bound source = parseAll bound' source := by
  rw [parseAll_eq, parseAll_eq]
  exact (readAllFrom_mono hle [] [] (lex source)).imp_right (congrArg Prod.fst)

theorem Reads.unique {source : String} {r r' : Except ReadFault (List Value)}
    (h : Reads source r) (h' : Reads source r') : r = r' := by
  obtain ⟨hr, bound, rfl⟩ := h
  obtain ⟨hr', bound', rfl⟩ := h'
  rcases Nat.le_total bound bound' with hle | hle
  · exact (parseAll_mono hle source).resolve_left hr
  · exact ((parseAll_mono hle source).resolve_left hr').symm

/-- From some bound on, a text is read as it reads. -/
theorem Reads.eventually {source : String} {r : Except ReadFault (List Value)}
    (h : Reads source r) : ∃ bound, ∀ deep ≥ bound, parseAll deep source = r := by
  obtain ⟨hr, bound, rfl⟩ := h
  exact ⟨bound, fun deep hle => ((parseAll_mono hle source).resolve_left hr).symm⟩

/-- Every text reads as something: a bound as large as the number of tokens is never reached. -/
theorem existsUnique_reads (source : String) : ∃! r, Reads source r := by
  have hreads : Reads source (parseAll (lex source).length source) :=
    ⟨parseAll_ne_tooDeep (Nat.le_refl _), _, rfl⟩
  exact ⟨_, hreads, fun r h => h.unique hreads⟩

/-- A fault that is met before the end stays, whatever is written on further lines. -/
theorem Reads.append_of_error {source : String} {e : ReadFault} (h : Reads source (.error e))
    (he : e ≠ .unexpectedEnd) (more : String) : Reads (source ++ "\n" ++ more) (.error e) := by
  obtain ⟨hr, bound, hbound⟩ := h
  refine ⟨hr, bound, ?_⟩
  rw [parseAll_eq] at hbound
  rw [parseAll_eq, lex_append_newline]
  exact readAllFrom_append_of_error hbound he _

theorem tokens_replicate_close (n : Nat) :
    tokens .gap (List.replicate n ')') = List.replicate n ⟨.closeParen, ")"⟩ := by
  induction n with
  | zero => rfl
  | succ n ih => rw [List.replicate_succ, tokens_close, ih, List.replicate_succ]

/-- The text of an empty list, and of closing parentheses for `n` lists around it. -/
def closingText (n : Nat) : String :=
  String.ofList ('(' :: List.replicate (n + 1) ')')

theorem lex_closingText (n : Nat) :
    lex (closingText n) = ⟨.openParen, "("⟩ :: List.replicate (n + 1) ⟨.closeParen, ")"⟩ := by
  rw [lex_eq_tokens, closingText, String.toList_ofList, tokens_open, tokens_replicate_close]

/-- A text that ends too early can be completed on the next line. -/
theorem Reads.exists_completion {source : String} (h : Reads source (.error .unexpectedEnd)) :
    ∃ more es, Reads (source ++ "\n" ++ more) (.ok es) := by
  obtain ⟨-, bound, hbound⟩ := h
  rw [parseAll_eq] at hbound
  obtain ⟨read, ps, hgo⟩ := readAllFrom_append_of_end hbound
  -- the bound leaves room for one more list inside the open forms
  obtain ⟨es, hes⟩ := readAllFrom_replicate_close (max bound (ps.length + 1)) read [] ps
  refine ⟨closingText (openLists ps), es, by simp, max bound (ps.length + 1), ?_⟩
  rw [parseAll_eq, lex_append_newline, hgo _ (Nat.le_max_left _ _), lex_closingText, readAllFrom]
  have hroom : ¬ max bound (ps.length + 1) ≤ ps.length := by omega
  simpa [accept, hroom] using hes

/-- Faults of evaluation, as opposed to faults of reading. -/
def Fault.OfEvaluation (fault : Fault) : Prop :=
  ∀ cause, fault ≠ .unreadable cause

namespace Eval

variable {depth : Nat} {ev : Evaluator}

/-- A computation whose faults are all of evaluation. -/
def Evaluates {α : Type} (act : Eval α) (s : Store) : Prop :=
  act.Ends s (fun _ _ => True) fun fault _ => fault.OfEvaluation

theorem applyBuiltin_evaluates (hev : ∀ f e s, (ev f e).Evaluates s) (f : FrameId)
    (form : List Value) (b : Builtin) (s : Store) :
    (applyBuiltin depth ev f form b).Evaluates s := by
  have hbad : ∀ b fault, Refusal b fault → fault.OfEvaluation := by
    intro b fault h cause
    cases h <;> simp
  have hoperand : ∀ op, ∀ e ∈ form.tail, ∀ s', True →
      (ev f e).Ends s'
        (fun v _ => True ∧ ∀ fault, NotNumber depth op v fault → fault.OfEvaluation)
        fun fault _ => fault.OfEvaluation := by
    intro op e _ s' _
    refine Ends.imp (hev f e s') fun v s'' _ => ⟨trivial, ?_⟩
    intro fault h cause
    cases h <;> simp
  cases b with
  | sequence => exact ends_sequence (fun e _ _ s' _ => hev f e s') trivial
  | define => exact ends_define (fun _ _ e _ => hev f e s) (hbad _)
  | branch =>
    refine ends_branch (fun _ test conseq alt _ => ?_) (hbad _)
    exact Ends.imp (hev f test s) fun v s' _ => hev f _ s'
  | lambda => exact ends_lambda (fun _ _ _ _ _ => trivial) (hbad _)
  | quote => exact ends_quote (fun _ _ _ => trivial) (hbad _)
  | product =>
    exact ends_arithmetic (.inl rfl) (hoperand _) (fun _ _ h => h) (fun _ _ h => h) trivial
  | difference =>
    exact ends_arithmetic (.inr (.inl rfl)) (hoperand _) (fun _ _ h => h) (fun _ _ h => h) trivial
  | equality =>
    exact ends_arithmetic (.inr (.inr rfl)) (hoperand _) (fun _ _ h => h) (fun _ _ h => h) trivial

theorem apply_evaluates (hev : ∀ f e s, (ev f e).Evaluates s) (f : FrameId) (head : Value)
    (form : List Value) (s : Store) : (apply depth ev f head form).Evaluates s := by
  unfold apply
  split
  · exact applyBuiltin_evaluates hev f form _ s
  · rename_i formals body outer
    apply ends_bind
    refine Ends.imp (ends_mapM (P := fun _ _ => True) (fun e _ _ s' _ => hev f e s') trivial) ?_
    intro args s' _
    apply ends_bind
    refine ends_extend (I := fun _ => True) (fun _ _ _ _ h => h) (fun _ _ _ _ _ => ?_)
      (fun s'' _ => hev _ body s'') trivial
    simp [Fault.OfEvaluation]
  · exact ends_bind (ends_displayed (fun _ _ => ends_throw (by simp [Fault.OfEvaluation]))
      fun _ _ => by simp [Fault.OfEvaluation])

/-- Evaluation never finds fault with source text. -/
theorem eval_evaluates (depth : Nat) (f : FrameId) (e : Value) (s : Store) :
    (eval depth f e).Evaluates s := by
  induction depth generalizing f e s with
  | zero => exact ends_throw (by simp [Fault.OfEvaluation])
  | succ depth ih =>
    refine ends_eval (by simp [Fault.OfEvaluation]) ?_ (by simp [Fault.OfEvaluation])
      (fun _ _ _ _ => trivial) (by simp [Fault.OfEvaluation]) (by simp [Fault.OfEvaluation])
      fun _ _ => trivial
    intro n operands v _ _
    exact apply_evaluates ih f v _ s

end Eval

/-- Reading and evaluating in turn finds only these faults with the text. -/
theorem evalTokens_fault (bound : Nat) {ts : List Token}
    (hkind : ∀ t ∈ ts, ∀ name, t.kind ≠ .other name) (last : Value) (ps : List Pending)
    (s : Store) :
    (Session.evalTokens bound none last ps ts).Ends s (fun _ _ => True)
      fun fault _ => ∀ e, fault = .unreadable e →
        e = .tooDeep ∨ e = .unexpectedEnd ∨ e = .unexpectedClose := by
  induction ts generalizing last ps s with
  | nil =>
    cases ps with
    | nil => exact Eval.ends_pure trivial
    | cons p ps =>
      refine Eval.ends_throw fun e heq => ?_
      rw [underEnding_none, Fault.unreadable.injEq] at heq
      exact .inr (.inl heq.symm)
  | cons t ts ih =>
    have hts : ∀ u ∈ ts, ∀ name, u.kind ≠ .other name := fun u hu => hkind u (by simp [hu])
    rw [Session.evalTokens]
    split
    · rename_i e he
      refine Eval.ends_throw fun e' heq => ?_
      simp only [Fault.unreadable.injEq] at heq
      exact (accept_error (hkind t (by simp)) (heq ▸ he)).imp_right .inr
    · exact ih hts _ _ s
    · rename_i v hv
      apply Eval.ends_bind
      refine (Eval.eval_evaluates bound Session.globalFrame v s).mono
        (fun w s' _ => ih hts w [] s') ?_
      intro fault s' hfault e heq
      exact absurd heq (hfault e)

theorem evalText_fault (bound : Nat) (source : String) (s : Store) :
    (Session.evalText bound source).Ends s (fun _ _ => True)
      fun fault _ => ∀ e, fault = .unreadable e →
        e = .tooDeep ∨ e = .unexpectedEnd ∨ e = .unexpectedClose := by
  rw [Session.evalText_eq]
  exact evalTokens_fault bound (fun _ ht => lex_kind ht) .unit [] s

/-- Faults of reading tell incomplete text from wrong text. Every text is read or refused in one
way. If it is refused because it ends too early, it can be completed on further lines, and only
then. If it is refused for a closing parenthesis, so it is whatever is written on further lines, and
only then. Source text that is taken apart into tokens, read in part or as a whole, evaluated or
loaded is refused in no other words. -/
theorem faults_tell_incomplete_from_wrong (source : String) :
    (∃! r, Reads source r) ∧
    (∀ e, Reads source (.error e) →
      (e.message = "Unexpected EOF" ↔ ∃ more es, Reads (source ++ "\n" ++ more) (.ok es)) ∧
      (e.message = "Unexpected ')'" ↔ ∀ more, ∃ e', e'.message = "Unexpected ')'" ∧
        Reads (source ++ "\n" ++ more) (.error e'))) ∧
    (∀ bound e, (lexing source).fault = some e ∨ parseAll bound source = .error e ∨
        parse bound source = .error e ∨
        (∃ s, ((Session.evalText bound source).on s).1 = .error (.unreadable e)) ∨
        (∃ s, ((Session.load bound source).on s).1 = .error (.unreadable e)) →
      e = .tooDeep ∨ e.message = "Unexpected EOF" ∨ e.message = "Unexpected ')'") := by
  refine ⟨existsUnique_reads source, fun e he => ?_, fun bound e he => ?_⟩
  · have ⟨hdeep, bound, hbound⟩ := he
    rcases parseAll_error hbound with rfl | rfl | rfl
    · exact absurd rfl hdeep
    · obtain ⟨more, es, hes⟩ := he.exists_completion
      refine ⟨⟨fun _ => ⟨more, es, hes⟩, fun _ => rfl⟩,
        ⟨fun h => absurd h (by decide), fun h => ?_⟩⟩
      obtain ⟨e', -, he'⟩ := h more
      exact absurd (hes.unique he') (by simp)
    · have hwrong := he.append_of_error (by simp)
      refine ⟨⟨fun h => absurd h (by decide), fun h => ?_⟩,
        ⟨fun _ more => ⟨_, rfl, hwrong more⟩, fun _ => rfl⟩⟩
      obtain ⟨more, es, hes⟩ := h
      exact absurd (hes.unique (hwrong more)) (by simp)
  · have hfault : e = .tooDeep ∨ e = .unexpectedEnd ∨ e = .unexpectedClose := by
      rcases he with he | he | he | ⟨s, he⟩ | ⟨s, he⟩
      · rw [lexing_fault] at he
        cases he
      · exact parseAll_error he
      · rw [parse_eq] at he
        exact readFrom_error (fun _ ht => lex_kind ht) he
      · exact (evalText_fault bound source s).of_error he e rfl
      · have hload : (discard (Session.evalText bound source)).Ends s (fun _ _ => True) _ :=
          Eval.ends_map (evalText_fault bound source s)
        rw [Session.load_eq] at he
        exact hload.of_error he e rfl
    rcases hfault with rfl | rfl | rfl
    · exact .inl rfl
    · exact .inr (.inl rfl)
    · exact .inr (.inr rfl)

-- the parenthesis in the comment closes nothing, and none can stand for a quoted value
example : Reads "(a '; )" (.error .unexpectedEnd) ∧ Reads "(a ')" (.error .unexpectedClose) :=
  ⟨⟨by simp, 9, by rw [parseAll_eq_scan]; rfl⟩, ⟨by simp, 9, by rw [parseAll_eq_scan]; rfl⟩⟩

end Lisplet
