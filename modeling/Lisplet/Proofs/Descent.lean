import Lisplet.TokenStream
import Lisplet.Proofs.Lexing

/-! Reading by descent. A stream is read by calls that wait for one another, and a list of tokens by
a machine that keeps the open forms. The open forms are the calls that wait: wherever a call comes
to a value, the machine hands the same value to the innermost open form, with the same tokens left.
So a stream yields what the machine reads from the tokens to come, and takes the same tokens. As
lexing never fails, a text reads as its tokens do. -/

namespace Lisplet

namespace Reader

theorem complete_ne_more_nil (v : Value) (ps : List Pending) : complete v ps ≠ .more [] := by
  induction ps generalizing v with
  | nil => simp [complete]
  | cons p ps ih => cases p <;> simp [complete, ih]

/-- A value that is finished outside all forms is done, so open forms are never none. -/
theorem accept_ne_more_nil (bound : Nat) (ps : List Pending) (t : Token) :
    accept bound ps t ≠ .ok (.more []) := by
  unfold accept
  split
  · simp [complete_ne_more_nil]
  · split
    · simp
    · split <;> simp [complete_ne_more_nil]

theorem accept_ne_unexpectedEnd (bound : Nat) (ps : List Pending) (t : Token) :
    accept bound ps t ≠ .error .unexpectedEnd := by
  unfold accept
  split
  · simp
  · split
    · simp
    · split <;> simp

variable {bound : Nat}

/-- Reading all values is reading one, and then all others. -/
theorem readAllFrom_of_value {ps : List Pending} {ts rest : List Token} {v : Value}
    (h : readFrom bound ps ts = (.ok v, rest)) (read : List Value) :
    readAllFrom bound read ps ts = readAllFrom bound (v :: read) [] rest := by
  induction ts generalizing ps with
  | nil => simp [readFrom] at h
  | cons t ts ih =>
    rw [readFrom] at h
    rw [readAllFrom]
    split at h
    · simp only [Prod.mk.injEq, Except.ok.injEq] at h
      rw [h.1, h.2]
    · exact ih h
    · simp at h

theorem readAllFrom_of_fault {ps : List Pending} {ts rest : List Token} {e : ReadFault}
    (h : readFrom bound ps ts = (.error e, rest)) (hne : ps ≠ [] ∨ ts ≠ []) (read : List Value) :
    readAllFrom bound read ps ts = (.error e, rest) := by
  induction ts generalizing ps with
  | nil =>
    obtain ⟨p, ps, rfl⟩ := List.exists_cons_of_ne_nil (hne.resolve_right (by simp))
    rw [readFrom, Prod.mk.injEq, Except.error.injEq] at h
    rw [readAllFrom, h.1, h.2]
  | cons t ts ih =>
    rw [readFrom] at h
    rw [readAllFrom]
    split at h
    · simp at h
    · rename_i ps' hps'
      exact ih h (.inl fun hnil => accept_ne_more_nil bound ps t (hnil ▸ hps'))
    · rw [Prod.mk.injEq, Except.error.injEq] at h
      rw [h.1, h.2]

end Reader

namespace TokenStream

open Reader

variable {bound : Nat} {ps : List Pending}

/-- What the machine reads from tokens inside open forms, with the tokens left as a stream. -/
def readPending (bound : Nat) (ps : List Pending) (ts : List Token) :
    Except ReadFault Value × TokenStream :=
  ((readFrom bound ps ts).1, ⟨none, (readFrom bound ps ts).2⟩)

/-- What the machine still does inside open forms when a call is over. -/
def resume (bound : Nat) (ps : List Pending) {s : TokenStream} :
    Outcome s → Except ReadFault Value × TokenStream
  | .fault cause rest => (.error cause, rest)
  | .value v rest _ =>
    match complete v ps with
    | .done w => (.ok w, rest)
    | .more ps' => readPending bound ps' rest.remaining

theorem resume_since {s later : TokenStream} (h : later.remaining.length < s.remaining.length)
    (o : Outcome later) : resume bound ps (o.since h) = resume bound ps o := by
  cases o <;> rfl

/-- A value inside a quotation is its quotation outside. -/
theorem resume_quoted {s : TokenStream} (o : Outcome s) :
    resume bound (.quoted :: ps) o = resume bound ps (o.map Value.quotation) := by
  cases o <;> rfl

/-! One step of the machine, by the token that the stream hands out. -/

section Step

variable {s rest : TokenStream} {t : Token}

theorem lookahead_of_advance {t : Option Token} (h : s.advance = (t, rest)) :
    rest = ⟨none, rest.remaining⟩ := by
  rw [advance_eq, Prod.mk.injEq] at h
  rw [← h.2]
  rfl

theorem eq_of_peek_none (h : s.peek = (none, rest)) : s = ⟨none, []⟩ ∧ rest = ⟨none, []⟩ := by
  rcases s with ⟨_ | t, _ | ⟨u, us⟩⟩
  · cases h
    exact ⟨rfl, rfl⟩
  all_goals cases h

theorem ne_nil_of_peek (h : s.peek = (some t, rest)) : s.remaining ≠ [] := by
  intro hnil
  have ht := peek_fst s
  rw [h, hnil] at ht
  cases ht

theorem advance_of_peek_none (h : s.peek = (none, rest)) : s.advance = (none, rest) := by
  obtain ⟨rfl, rfl⟩ := eq_of_peek_none h
  rfl

theorem readPending_of_end (hs : s.advance = (none, rest)) :
    readPending bound ps s.remaining = (.error .unexpectedEnd, rest) := by
  rw [advance_eq, Prod.mk.injEq, List.head?_eq_none_iff] at hs
  rw [← hs.2, hs.1]
  rfl

theorem readPending_of_error (hs : s.advance = (some t, rest)) {e : ReadFault}
    (h : accept bound ps t = .error e) : readPending bound ps s.remaining = (.error e, rest) := by
  rw [remaining_of_advance hs, readPending, readFrom, h, ← lookahead_of_advance hs]

theorem readPending_of_more (hs : s.advance = (some t, rest)) {ps' : List Pending}
    (h : accept bound ps t = .ok (.more ps')) :
    readPending bound ps s.remaining = readPending bound ps' rest.remaining := by
  rw [remaining_of_advance hs, readPending, readFrom, h]
  rfl

/-- A token that completes a value does what a call with this value does. -/
theorem readPending_of_complete (hs : s.advance = (some t, rest)) {later : TokenStream} {v : Value}
    {outer : List Pending} (h : accept bound ps t = .ok (complete v outer))
    (fewer : rest.remaining.length < later.remaining.length) :
    readPending bound ps s.remaining = resume bound outer (.value v rest fewer) := by
  rw [remaining_of_advance hs, readPending, readFrom, h, resume]
  cases complete v outer with
  | done w => exact congrArg (Prod.mk _) (lookahead_of_advance hs).symm
  | more ps' => rfl

end Step

/-- The parenthesis in front, if there is one, closes no open list. -/
def OpensValue (ps : List Pending) (ts : List Token) : Prop :=
  ∀ t, ts.head? = some t → t.kind = .closeParen → ∀ vs outer, ps ≠ .items vs :: outer

theorem accept_of_opensValue (bound : Nat) {t : Token} {ts : List Token}
    (h : OpensValue ps (t :: ts)) :
    accept bound ps t =
      if bound ≤ ps.length then .error .tooDeep
      else
        match t.kind with
        | .symbol => .ok (complete (atom t.text) ps)
        | .quote => .ok (.more (.quoted :: ps))
        | .openParen => .ok (.more (.items [] :: ps))
        | .closeParen => .error .unexpectedClose
        | .other name => .error (.unknownToken name t.text) := by
  unfold accept
  split
  · rename_i vs outer hkind
    exact absurd rfl (h t rfl hkind vs outer)
  · rfl

/-- The members of a list are read as the machine reads inside that list. -/
theorem readMembers_resume {depth : Nat} (hb : ps.length + 1 + depth = bound)
    (hvalue : ∀ ps' (s : TokenStream), ps'.length + depth = bound → OpensValue ps' s.remaining →
      readPending bound ps' s.remaining = resume bound ps' (readValue depth s))
    (read : List Value) (s : TokenStream) :
    readPending bound (.items read :: ps) s.remaining =
      resume bound ps (readMembers (readValue depth) read s) := by
  have hmember : ∀ {read s t seen}, peek s = (some t, seen) → t.kind ≠ .closeParen →
      readPending bound (.items read :: ps) s.remaining =
        resume bound (.items read :: ps) (readValue depth seen) := by
    intro read s t seen h hopen
    rw [← remaining_of_peek h]
    refine hvalue _ seen hb fun u hu hclose => ?_
    rw [remaining_of_peek h, ← peek_fst, h, Option.some.injEq] at hu
    exact absurd (hu ▸ hclose) hopen
  fun_induction readMembers (readValue depth) read s with
  | case1 read s rest h => exact readPending_of_end (advance_of_peek_none h)
  | case2 read s t seen h hclose =>
    have haccept : accept bound (.items read :: ps) t = .ok (complete (.list read.reverse) ps) := by
      unfold accept
      rw [hclose]
    rw [← remaining_of_peek h]
    exact readPending_of_complete (advance_of_peek h) haccept _
  | case3 read s t seen h hopen cause rest hfault =>
    rw [hmember h hopen, hfault]
    rfl
  | case4 read s t seen h hopen v rest fewer hv hrest ih =>
    rw [hmember h hopen, hv, resume_since, ← ih]
    rfl

theorem readValue_resume (depth : Nat) (ps : List Pending) (s : TokenStream)
    (hb : ps.length + depth = bound) (hs : OpensValue ps s.remaining) :
    readPending bound ps s.remaining = resume bound ps (readValue depth s) := by
  induction depth generalizing ps s with
  | zero =>
    unfold readValue
    split
    · rename_i rest h
      exact readPending_of_end h
    · rename_i t rest h
      rw [remaining_of_advance h] at hs
      have haccept := accept_of_opensValue bound hs
      rw [if_pos (by omega)] at haccept
      exact readPending_of_error h haccept
  | succ depth ih =>
    unfold readValue
    split
    · rename_i rest h
      exact readPending_of_end h
    · rename_i t rest h
      rw [remaining_of_advance h] at hs
      have haccept := accept_of_opensValue bound hs
      rw [if_neg (by omega)] at haccept
      cases hkind : t.kind with
      | symbol =>
        rw [hkind] at haccept
        exact readPending_of_complete h haccept _
      | quote =>
        rw [hkind] at haccept
        rw [readPending_of_more h haccept, ih (.quoted :: ps) rest (by simp; omega) nofun,
          resume_quoted]
        exact (resume_since _ _).symm
      | openParen =>
        rw [hkind] at haccept
        rw [readPending_of_more h haccept, readMembers_resume (by omega) ih]
        exact (resume_since _ _).symm
      | closeParen =>
        rw [hkind] at haccept
        exact readPending_of_error h haccept
      | other name =>
        rw [hkind] at haccept
        exact readPending_of_error h haccept

/-- What a call outside all forms comes to is what the machine reads there. -/
theorem readFrom_of_resume {s rest : TokenStream} {r : Except ReadFault Value}
    (h : resume bound [] (readValue bound s) = (r, rest)) :
    readFrom bound [] s.remaining = (r, rest.remaining) ∧ rest = ⟨none, rest.remaining⟩ := by
  rw [← readValue_resume bound [] s (Nat.zero_add _) fun _ _ _ _ _ => nofun] at h
  obtain ⟨hresult, hrest⟩ := Prod.mk.inj h
  rw [← hrest]
  exact ⟨Prod.ext hresult rfl, rfl⟩

theorem readFrom_of_readValue {s rest : TokenStream} {v : Value}
    {fewer : rest.remaining.length < s.remaining.length}
    (h : readValue bound s = .value v rest fewer) :
    readFrom bound [] s.remaining = (.ok v, rest.remaining) ∧ rest = ⟨none, rest.remaining⟩ :=
  readFrom_of_resume (congrArg (resume bound []) h)

theorem readFrom_of_readValue_fault {s rest : TokenStream} {cause : ReadFault}
    (h : readValue bound s = .fault cause rest) :
    readFrom bound [] s.remaining = (.error cause, rest.remaining) ∧
      rest = ⟨none, rest.remaining⟩ :=
  readFrom_of_resume (congrArg (resume bound []) h)

/-- Asking a stream for a value is reading one from the tokens to come, if there are any. -/
theorem read?_eq (bound : Nat) (st : TokenStream) :
    st.read? bound =
      if st.remaining = [] then (.ok none, st)
      else
        ((readFrom bound [] st.remaining).1.map some,
          ⟨none, (readFrom bound [] st.remaining).2⟩) := by
  unfold read?
  split
  · rename_i rest h
    obtain ⟨rfl, rfl⟩ := eq_of_peek_none h
    rfl
  · rename_i t seen h
    rw [if_neg (ne_nil_of_peek h), ← remaining_of_peek h]
    split
    · rename_i v rest fewer hv
      obtain ⟨hread, hrest⟩ := readFrom_of_readValue hv
      rw [hread, hrest]
      rfl
    · rename_i cause rest hfault
      obtain ⟨hread, hrest⟩ := readFrom_of_readValue_fault hfault
      rw [hread, hrest]
      rfl

theorem read?_cons (bound : Nat) (t : Token) (ts : List Token) :
    read? bound ⟨none, t :: ts⟩ =
      ((readFrom bound [] (t :: ts)).1.map some, ⟨none, (readFrom bound [] (t :: ts)).2⟩) :=
  (read?_eq bound _).trans (if_neg nofun)

theorem remaining_of_end {st st' : TokenStream} (h : st.read? bound = (.ok none, st')) :
    st.remaining = [] := by
  rw [read?_eq] at h
  split at h
  · assumption
  · generalize readFrom bound [] st.remaining = run at h
    obtain ⟨cause | v, rest⟩ := run <;> cases h

theorem readFrom_of_value {st st' : TokenStream} {v : Value}
    (h : st.read? bound = (.ok (some v), st')) :
    readFrom bound [] st.remaining = (.ok v, st'.remaining) := by
  rw [read?_eq] at h
  split at h
  · cases h
  · generalize readFrom bound [] st.remaining = run at h ⊢
    obtain ⟨cause | w, rest⟩ := run <;> cases h
    rfl

theorem readFrom_of_fault {st st' : TokenStream} {cause : ReadFault}
    (h : st.read? bound = (.error cause, st')) :
    st.remaining ≠ [] ∧ readFrom bound [] st.remaining = (.error cause, st'.remaining) := by
  rw [read?_eq] at h
  split at h
  · cases h
  · rename_i hne
    refine ⟨hne, ?_⟩
    generalize readFrom bound [] st.remaining = run at h ⊢
    obtain ⟨cause | w, rest⟩ := run <;> cases h
    rfl

theorem readRest_eq (bound : Nat) (read : List Value) (st : TokenStream) :
    st.readRest bound read =
      ((readAllFrom bound read [] st.remaining).1,
        ⟨none, (readAllFrom bound read [] st.remaining).2⟩) := by
  fun_induction readRest bound read st with
  | case1 read st rest h =>
    obtain ⟨rfl, rfl⟩ := eq_of_peek_none h
    rfl
  | case2 read st t seen h v rest fewer hv hlt ih =>
    obtain ⟨hread, -⟩ := readFrom_of_readValue hv
    rw [remaining_of_peek h] at hread
    rw [ih, readAllFrom_of_value hread]
  | case3 read st t seen h cause rest hfault =>
    obtain ⟨hread, hrest⟩ := readFrom_of_readValue_fault hfault
    rw [remaining_of_peek h] at hread
    rw [readAllFrom_of_fault hread (.inr (ne_nil_of_peek h)), hrest]
    rfl

/-- All values of a stream are those of the tokens to come. -/
theorem readAll_eq (bound : Nat) (st : TokenStream) :
    st.readAll bound =
      ((readAllFrom bound [] [] st.remaining).1,
        ⟨none, (readAllFrom bound [] [] st.remaining).2⟩) :=
  readRest_eq bound [] st

end TokenStream

/-- Where a text is out of tokens it is over, so the end is all that a reader meets there. -/
theorem underEnding_none (cause : ReadFault) : cause.underEnding none = cause := by
  cases cause <;> rfl

theorem parse_eq (bound : Nat) (source : String) :
    parse bound source = (Reader.readFrom bound [] (lex source)).1 := by
  rw [parse, lexing_fault, lex]
  rcases (lexing source).tokens with _ | ⟨t, ts⟩
  · rfl
  · rw [TokenStream.read?_cons]
    cases (Reader.readFrom bound [] (t :: ts)).1 with
    | ok v => rfl
    | error cause => exact congrArg Except.error (underEnding_none cause)

theorem parseAll_eq (bound : Nat) (source : String) :
    parseAll bound source = (Reader.readAllFrom bound [] [] (lex source)).1 := by
  have hread : (TokenStream.readAll bound { unread := (lexing source).tokens }).1 =
      (Reader.readAllFrom bound [] [] (lexing source).tokens).1 :=
    congrArg Prod.fst (TokenStream.readAll_eq bound _)
  rw [parseAll, lexing_fault, lex, hread]
  cases (Reader.readAllFrom bound [] [] (lexing source).tokens).1 with
  | ok values => rfl
  | error cause => exact congrArg Except.error (underEnding_none cause)

/-- What is read can be computed by the scanner. -/
theorem parseAll_eq_scan (bound : Nat) (source : String) :
    parseAll bound source = (Reader.readAllFrom bound [] [] (Scanner.scan source)).1 := by
  rw [parseAll_eq, lex_eq_scan]

end Lisplet
