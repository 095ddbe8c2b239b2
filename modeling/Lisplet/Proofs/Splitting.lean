import Lisplet.Proofs.Computation
import Lisplet.Proofs.Grammar
import Lisplet.Proofs.Loading

/-! Splitting a text at the end of a line. The texts on both sides have their own tokens, and where
the first is complete no open form reaches across either. Evaluation reads one expression at a
time, so a joined text is evaluated like its first part and then, from the store that leaves, like
its second part, also where either of them fails. -/

namespace Lisplet.Reader

/-- A token that is taken in under one bound is taken in alike under another, unless it stands too
deep for that. -/
theorem accept_of_ok (bound : Nat) {deep : Nat} {ps : List Pending} {t : Token} {r : Progress}
    (h : accept deep ps t = .ok r) :
    accept bound ps t = .error .tooDeep ∨ accept bound ps t = .ok r := by
  rcases Nat.le_total bound deep with hle | hle
  · have hmono := accept_mono hle ps t
    rwa [h] at hmono
  · exact .inr (accept_ok_mono hle h)

end Lisplet.Reader

namespace Lisplet

open Reader

/-- A text without an expression is one without a token. -/
theorem parseAll_eq_nil_iff {bound : Nat} {source : String} :
    parseAll bound source = .ok [] ↔ lex source = [] := by
  constructor
  · intro h
    obtain ⟨tss, htss, hderives⟩ := forms_iff.1 (forms_of_parseAll h)
    rw [List.forall₂_nil_right_iff] at hderives
    simpa [hderives] using htss.symm
  · intro h
    simp [parseAll_eq, h, readAllFrom]

namespace Session

/-- Tokens that end outside all forms, whatever the bound under which they were read, are evaluated
before the tokens that follow them. -/
theorem evalTokens_append {bound deep : Nat} {ts : List Token} {read es : List Value}
    {ps : List Pending} (h : (readAllFrom deep read ps ts).1 = .ok es) (last : Value)
    (us : List Token) :
    evalTokens bound none last ps (ts ++ us) =
      evalTokens bound none last ps ts >>= fun v => evalTokens bound none v [] us := by
  induction ts generalizing read ps last with
  | nil =>
    cases ps with
    | nil => rw [List.nil_append, evalTokens, conclude_none, pure_bind]
    | cons p ps => simp [readAllFrom] at h
  | cons t ts ih =>
    rw [readAllFrom] at h
    rw [List.cons_append, evalTokens, evalTokens]
    split at h
    · rename_i e he
      rcases accept_of_ok bound he with hdeep | hok
      · simp [hdeep]
      · simp [hok, ih h]
    · rename_i ps' hps'
      rcases accept_of_ok bound hps' with hdeep | hok
      · simp [hdeep]
      · simp [hok, ih h]
    · simp at h

/-- The value at hand is forgotten as soon as there is anything to read. -/
theorem evalTokens_last {bound : Nat} {ps : List Pending} {ts : List Token}
    (h : ps ≠ [] ∨ ts ≠ []) (last last' : Value) :
    evalTokens bound none last ps ts = evalTokens bound none last' ps ts := by
  induction ts generalizing ps with
  | nil =>
    obtain ⟨p, ps, rfl⟩ := List.exists_cons_of_ne_nil (h.resolve_right (by simp))
    rfl
  | cons t ts ih =>
    rw [evalTokens, evalTokens]
    split
    · rfl
    · rename_i ps' hps'
      exact ih (.inl fun hnil => accept_ne_more_nil bound ps t (hnil ▸ hps'))
    · rfl

/-- Evaluating a complete text and another one on the next line is evaluating the first and then
the second. A fault of the first is the fault of both, with the same store. Otherwise both together
end as the second does from the store that the first left, syntax errors included; only the value
is that of the first if there is no expression in the second. -/
theorem evalText_append_newline {deep : Nat} {a : String} {es : List Value}
    (ha : parseAll deep a = .ok es) (bound : Nat) (b : String) (s : Store) :
    (evalText bound a).Ends s
      (fun v s' =>
        (parseAll bound b = .ok [] →
          (evalText bound (a ++ "\n" ++ b)).on s = (.ok v, ((evalText bound b).on s').2)) ∧
        (parseAll bound b ≠ .ok [] →
          (evalText bound (a ++ "\n" ++ b)).on s = (evalText bound b).on s'))
      fun fault s' => (evalText bound (a ++ "\n" ++ b)).on s = (.error fault, s') := by
  have hsplit : evalText bound (a ++ "\n" ++ b) =
      evalText bound a >>= fun v => evalTokens bound none v [] (lex b) := by
    rw [parseAll_eq] at ha
    rw [evalText_eq, lex_append_newline, evalTokens_append ha, evalText_eq]
  unfold Eval.Ends
  rw [hsplit, Eval.on_bind]
  rcases (evalText bound a).on s with ⟨fault | v, s'⟩
  · rfl
  · refine ⟨fun hb => ?_, fun hb => ?_⟩
    · rw [parseAll_eq_nil_iff] at hb
      simp [evalText_eq, hb, evalTokens]
    · rw [Ne, parseAll_eq_nil_iff] at hb
      simp [evalText_eq, evalTokens_last (.inr hb) v .unit]

/-- A definition before a comment, and on the next line a use of it before a stray parenthesis. -/
theorem definition_then_use_split :
    parseAll 9 "(define x pi) ; one" =
        .ok [.list [.symbol "define", .symbol "x", .symbol "pi"]] ∧
      ((evalText 9 "(define x pi) ; one").on start).1.isOk = true ∧
      (evalText 9 ("(define x pi) ; one" ++ "\n" ++ "x )")).on start =
        (evalText 9 "x )").on ((evalText 9 "(define x pi) ; one").on start).2 := by
  have hparse : parseAll 9 "(define x pi) ; one" =
      .ok [.list [.symbol "define", .symbol "x", .symbol "pi"]] := by
    rw [parseAll_eq_scan]
    rfl
  have hok : ((evalText 9 "(define x pi) ; one").on start).1.isOk = true := by decide +kernel
  have hb : parseAll 9 "x )" ≠ .ok [] := by
    rw [Ne, parseAll_eq_nil_iff, lex_eq_scan]
    decide
  refine ⟨hparse, hok, ?_⟩
  have hends := evalText_append_newline hparse 9 "x )" start
  unfold Eval.Ends at hends
  generalize (evalText 9 "(define x pi) ; one").on start = run at hok hends ⊢
  obtain ⟨fault | v, s'⟩ := run
  · simp [Except.isOk, Except.toBool] at hok
  · exact hends.2 hb

end Session

end Lisplet
