import Lisplet.Proofs.Drivers
import Lisplet.Proofs.Splitting

/-! Evaluation of a text while it is read. A stream of tokens supplies values one at a time, up to
its end or to the first fault. Evaluating a text is evaluating in order what its stream supplies, and
only then meeting the end or the fault: so an expression that fails hides every fault of reading
after it, and a fault of reading undoes nothing that was evaluated before it. -/

namespace Lisplet

open Reader

namespace TokenStream

variable {bound : Nat}

/-- What a stream supplies when it is asked for one value after another: the values up to the end or
the first fault, and the fault if there is one. -/
inductive Supplies (bound : Nat) : TokenStream → List Value → Option ReadFault → Prop where
  | done {st st' : TokenStream} (h : st.read? bound = (.ok none, st')) : Supplies bound st [] none
  | fault {st st' : TokenStream} {cause : ReadFault} (h : st.read? bound = (.error cause, st')) :
      Supplies bound st [] (some cause)
  | value {st st' : TokenStream} {v : Value} {es : List Value} {ending : Option ReadFault}
      (h : st.read? bound = (.ok (some v), st')) (hs : Supplies bound st' es ending) :
      Supplies bound st (v :: es) ending

/-- Every stream comes to its end or to a fault. -/
theorem exists_supplies (bound : Nat) (st : TokenStream) :
    ∃ es ending, st.Supplies bound es ending := by
  generalize hn : st.remaining.length = n
  induction n using Nat.strongRecOn generalizing st with
  | ind n ih =>
    rcases hread : st.read? bound with ⟨cause | _ | v, st'⟩
    · exact ⟨[], some cause, .fault hread⟩
    · exact ⟨[], none, .done hread⟩
    · have hlt : st'.remaining.length < n := hn ▸ length_of_read? hread
      obtain ⟨es, ending, hs⟩ := ih _ hlt st' rfl
      exact ⟨v :: es, ending, .value hread hs⟩

theorem Supplies.unique {st : TokenStream} {es es' : List Value} {ending ending' : Option ReadFault}
    (h : st.Supplies bound es ending) (h' : st.Supplies bound es' ending') :
    es = es' ∧ ending = ending' := by
  induction h generalizing es' with
  | done hread => cases h' <;> simp_all
  | fault hread => cases h' <;> simp_all
  | value hread _ ih =>
    cases h' with
    | value hread' hs' =>
      simp only [hread, Prod.mk.injEq, Except.ok.injEq, Option.some.injEq] at hread'
      obtain ⟨rfl, rfl⟩ := hread'
      obtain ⟨rfl, rfl⟩ := ih hs'
      exact ⟨rfl, rfl⟩
    | _ => simp_all

end TokenStream

namespace Session

variable {bound : Nat} {ps : List Pending} {ts rest : List Token}

/-- Tokens are evaluated like the values that their stream supplies, in order, up to its end. -/
theorem evalTokens_of_supplies {st : TokenStream} {es : List Value} {ending : Option ReadFault}
    (h : st.Supplies bound es ending) (last : Value) :
    evalTokens bound none last [] st.remaining = evalAll bound last es >>= conclude ending := by
  induction h generalizing last with
  | done hread =>
    rw [TokenStream.remaining_of_end hread, evalTokens]
    rfl
  | fault hread =>
    obtain ⟨hne, hfrom⟩ := TokenStream.readFrom_of_fault hread
    rw [evalTokens_of_fault hfrom (.inr hne), underEnding_none]
    rfl
  | @value st st' v es ending hread _ ih =>
    have hcons : evalAll bound last (v :: es) =
        eval bound globalFrame v >>= fun w => evalAll bound w es := List.foldlM_cons
    rw [evalTokens_of_value (TokenStream.readFrom_of_value hread), hcons, bind_assoc]
    exact bind_congr ih

/-- Streaming. From every text the reader yields values, one at a time, up to the end or to a first
fault of reading. They are evaluated in order. The first that fails ends the evaluation with its
fault, in the store that it leaves, whatever comes after it. If none fails, all effects are kept, and
the evaluation ends with the fault of reading, or else with the last value. A text that is loaded for
its definitions ends in the same way, without a value. -/
theorem evalText_streams (bound : Nat) (source : String) :
    (∃! supply : List Value × Option ReadFault,
      (TokenStream.mk none (lex source)).Supplies bound supply.1 supply.2) ∧
    ∀ es ending, (TokenStream.mk none (lex source)).Supplies bound es ending → ∀ s,
      (∀ done e rest vs s₁ fault s', es = done ++ e :: rest → Yields bound s done vs s₁ →
        (eval bound globalFrame e).on s₁ = (.error fault, s') →
        (evalText bound source).on s = (.error fault, s')) ∧
      (∀ vs s', Yields bound s es vs s' →
        (∀ cause, ending = some cause →
          (evalText bound source).on s = (.error (.unreadable cause), s')) ∧
        (ending = none → (evalText bound source).on s = (.ok (vs.getLastD .unit), s'))) ∧
      (load bound source).on s =
        (((evalText bound source).on s).1.map fun _ => (), ((evalText bound source).on s).2) := by
  refine ⟨?_, fun es ending hsupplies s => ?_⟩
  · obtain ⟨es, ending, h⟩ := TokenStream.exists_supplies bound ⟨none, lex source⟩
    refine ⟨(es, ending), h, fun supply h' => ?_⟩
    obtain ⟨hes, hending⟩ := h'.unique h
    exact Prod.ext hes hending
  · have htext : evalText bound source = evalAll bound .unit es >>= conclude ending := by
      rw [evalText_eq]
      exact evalTokens_of_supplies hsupplies .unit
    refine ⟨?_, ?_, ?_⟩
    · rintro done e rest vs s₁ fault s' rfl hdone hfault
      rw [htext, Eval.on_bind, hdone.evalAll_on, evalAll, List.foldlM_cons, Eval.on_bind, hfault]
    · intro vs s' hvs
      have hall := hvs.evalAll_on .unit []
      rw [List.append_nil] at hall
      have hon : (evalText bound source).on s = (conclude ending (vs.getLastD .unit)).on s' := by
        rw [htext, Eval.on_bind, hall]
        rfl
      exact ⟨fun cause hcause => by rw [hon, hcause]; rfl, fun hnone => by rw [hon, hnone]; rfl⟩
    · rw [load_eq]
      change ((fun _ => ()) <$> evalText bound source : Eval Unit).on s = _
      rw [map_eq_pure_bind, Eval.on_bind]
      rcases (evalText bound source).on s with ⟨fault | v, s'⟩ <;> rfl

/-- After a definition, a call that fails hides a stray parenthesis. Without the call the parenthesis
is reported, and the definition is kept. -/
theorem fault_before_stray_parenthesis :
    ∃ v s₁ fault s',
      (eval 9 globalFrame (.list [.symbol "define", .symbol "x", .symbol "#t"])).on start =
        (.ok v, s₁) ∧
      (eval 9 globalFrame (.list [.symbol "x"])).on s₁ = (.error fault, s') ∧
      (evalText 9 "(define x #t) (x) )").on start = (.error fault, s') ∧
      (evalText 9 "(define x #t) )").on start = (.error (.unreadable .unexpectedClose), s₁) := by
  have hcall : (TokenStream.mk none (lex "(define x #t) (x) )")).Supplies 9
      [.list [.symbol "define", .symbol "x", .symbol "#t"], .list [.symbol "x"]]
      (some .unexpectedClose) := by
    rw [lex_eq_scan]
    exact .value (TokenStream.read?_cons ..)
      (.value (TokenStream.read?_cons ..) (.fault (TokenStream.read?_cons ..)))
  have hdefine : (TokenStream.mk none (lex "(define x #t) )")).Supplies 9
      [.list [.symbol "define", .symbol "x", .symbol "#t"]] (some .unexpectedClose) := by
    rw [lex_eq_scan]
    exact .value (TokenStream.read?_cons ..) (.fault (TokenStream.read?_cons ..))
  have hfirst : ((eval 9 globalFrame
      (.list [.symbol "define", .symbol "x", .symbol "#t"])).on start).1.isOk = true := by
    decide +kernel
  have hsecond : ((eval 9 globalFrame (.list [.symbol "x"])).on ((eval 9 globalFrame
      (.list [.symbol "define", .symbol "x", .symbol "#t"])).on start).2).1.isOk = false := by
    decide +kernel
  rcases hrun : (eval 9 globalFrame (.list [.symbol "define", .symbol "x", .symbol "#t"])).on start
    with ⟨fault | v, s₁⟩
  · rw [hrun] at hfirst
    cases hfirst
  · rw [hrun] at hsecond
    have hyields := Yields.cons hrun (.nil s₁)
    rcases hfault : (eval 9 globalFrame (.list [.symbol "x"])).on s₁ with ⟨fault | w, s'⟩
    · refine ⟨v, s₁, fault, s', rfl, hfault, ?_, ?_⟩
      · exact ((evalText_streams 9 _).2 _ _ hcall start).1 [_] _ [] [v] s₁ fault s' rfl hyields hfault
      · exact (((evalText_streams 9 _).2 _ _ hdefine start).2.1 [v] s₁ hyields).1 _ rfl
    · rw [hfault] at hsecond
      cases hsecond

end Session

end Lisplet
