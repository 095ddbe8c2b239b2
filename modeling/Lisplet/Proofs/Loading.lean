import Lisplet.Session
import Lisplet.Proofs.Descent

/-! Texts that are evaluated and texts that are loaded. Evaluation takes a text in token by token,
and loading asks a stream for one value after another. Both evaluate the same values in the same
order and meet the same end, so loading a text is evaluating it and dropping what comes of it. -/

namespace Lisplet.Session

open Reader

variable {bound : Nat} {ending : Option ReadFault} {ps : List Pending} {ts rest : List Token}

/-- A value that can be read is evaluated before the tokens after it. -/
theorem evalTokens_of_value {v : Value} (h : readFrom bound ps ts = (.ok v, rest)) (last : Value) :
    evalTokens bound ending last ps ts =
      eval bound globalFrame v >>= fun w => evalTokens bound ending w [] rest := by
  induction ts generalizing ps with
  | nil => simp [readFrom] at h
  | cons t ts ih =>
    rw [readFrom] at h
    rw [evalTokens]
    split at h
    · rename_i w hw
      simp only [Prod.mk.injEq, Except.ok.injEq] at h
      obtain ⟨rfl, rfl⟩ := h
      rw [hw]
    · rename_i ps' hps'
      rw [hps']
      exact ih h
    · simp at h

theorem underEnding_of_ne {cause : ReadFault} (h : cause ≠ .unexpectedEnd) :
    cause.underEnding ending = cause := by
  cases cause with
  | unexpectedEnd => exact absurd rfl h
  | _ => rfl

/-- A fault of reading is met in evaluation, if there is anything to read. -/
theorem evalTokens_of_fault {cause : ReadFault} (h : readFrom bound ps ts = (.error cause, rest))
    (hne : ps ≠ [] ∨ ts ≠ []) (last : Value) :
    evalTokens bound ending last ps ts = throw (.unreadable (cause.underEnding ending)) := by
  induction ts generalizing ps with
  | nil =>
    obtain ⟨p, ps, rfl⟩ := List.exists_cons_of_ne_nil (hne.resolve_right (by simp))
    simp only [readFrom, Prod.mk.injEq, Except.error.injEq] at h
    rw [evalTokens, h.1]
  | cons t ts ih =>
    rw [readFrom] at h
    rw [evalTokens]
    split at h
    · simp at h
    · rename_i ps' hps'
      rw [hps']
      exact ih h (.inl fun hnil => accept_ne_more_nil bound ps t (hnil ▸ hps'))
    · rename_i e he
      simp only [Prod.mk.injEq, Except.error.injEq] at h
      obtain ⟨rfl, -⟩ := h
      rw [he, underEnding_of_ne fun hend => accept_ne_unexpectedEnd bound ps t (hend ▸ he)]

/-- Loading evaluates what evaluation does with the tokens to come, whatever it starts from. -/
theorem loadStream_eq (stream : TokenStream) (last : Value) :
    loadStream bound ending stream =
      discard (evalTokens bound ending last [] stream.remaining) := by
  fun_induction loadStream bound ending stream generalizing last with
  | case1 stream rest h =>
    rw [TokenStream.remaining_of_end h, evalTokens]
    cases ending <;> rfl
  | case2 stream e rest h hlt ih =>
    rw [evalTokens_of_value (TokenStream.readFrom_of_value h)]
    exact (bind_congr ih).trans (map_bind ..).symm
  | case3 stream cause rest h =>
    obtain ⟨hne, hread⟩ := TokenStream.readFrom_of_fault h
    rw [evalTokens_of_fault hread (.inr hne)]
    rfl

/-- Loading a text is evaluating it and dropping the value. -/
theorem load_eq (bound : Nat) (source : String) :
    load bound source = discard (evalText bound source) :=
  loadStream_eq { unread := (lexing source).tokens } .unit

/-- A text is evaluated as its tokens are, without a fault at their end. -/
theorem evalText_eq (bound : Nat) (source : String) :
    evalText bound source = evalTokens bound none .unit [] (lex source) := by
  rw [evalText, lexing_fault]
  rfl

end Lisplet.Session
