import Mathlib.Data.List.Forall2
import Lisplet.Proofs.Descent

/-! The grammar of the reader. `Derives` says which tokens stand for which value, without a word
about how they are read, and `Forms` says it of a sequence of values. The reader is a machine with
a stack of open forms; `Open` says which tokens have led to a stack, and `Takes` says that the
machine takes in exactly some tokens. The two meet in both directions: what the machine takes in is
derived, and what is derived is taken in, under any stack and whatever follows. So no derivation is
the beginning of another, and tokens split into values in one way only. -/

namespace Lisplet.Value

/-- Data as the reader makes it: symbols, numbers, and lists of such data. -/
inductive IsSource : Value → Prop where
  | symbol (n : String) : IsSource (.symbol n)
  | number (x : Float) : IsSource (.number x)
  | list {items : List Value} (h : ∀ v ∈ items, v.IsSource) : IsSource (.list items)

theorem IsSource.mem {items : List Value} {v : Value} (h : (Value.list items).IsSource)
    (hv : v ∈ items) : v.IsSource := by
  obtain _ | _ | h := h
  exact h v hv

end Lisplet.Value

namespace Lisplet.Reader

mutual

/-- The tokens of one value. -/
inductive Derives : List Token → Value → Prop where
  | symbol {t : Token} (ht : t.kind = .symbol) : Derives [t] (atom t.text)
  | quote {t : Token} {ts : List Token} {e : Value} (ht : t.kind = .quote) (h : Derives ts e) :
      Derives (t :: ts) e.quotation
  | list {t u : Token} {ts : List Token} {es : List Value} (ht : t.kind = .openParen)
      (hu : u.kind = .closeParen) (h : Forms ts es) : Derives (t :: (ts ++ [u])) (.list es)

/-- The tokens of a sequence of values. -/
inductive Forms : List Token → List Value → Prop where
  | nil : Forms [] []
  | cons {ts us : List Token} {e : Value} {es : List Value} (h : Derives ts e) (hs : Forms us es) :
      Forms (ts ++ us) (e :: es)

end

theorem Forms.append {ts us : List Token} {es fs : List Value} (h : Forms ts es)
    (h' : Forms us fs) : Forms (ts ++ us) (es ++ fs) := by
  match h with
  | .nil => exact h'
  | .cons hd hs =>
    rw [List.append_assoc, List.cons_append]
    exact .cons hd (hs.append h')

theorem Forms.single {ts : List Token} {e : Value} (h : Derives ts e) : Forms ts [e] := by
  have := Forms.cons h .nil
  rwa [List.append_nil] at this

/-- A sequence of values is a concatenation of tokens for each of them. -/
theorem forms_iff {ts : List Token} {es : List Value} :
    Forms ts es ↔ ∃ tss : List (List Token), tss.flatten = ts ∧ List.Forall₂ Derives tss es := by
  constructor
  · intro h
    induction es generalizing ts with
    | nil => cases h; exact ⟨[], rfl, .nil⟩
    | cons e es ih =>
      cases h with
      | cons hd hs =>
        obtain ⟨tss, rfl, htss⟩ := ih hs
        exact ⟨_ :: tss, rfl, .cons hd htss⟩
  · rintro ⟨tss, rfl, h⟩
    induction h with
    | nil => exact .nil
    | cons hd _ ih => exact .cons hd ih

theorem depth_atom (word : String) : (atom word).depth = 1 := by
  unfold atom
  split
  · rfl
  · split <;> rfl

theorem depth_pos (e : Value) : 0 < e.depth := by
  cases e <;> simp [Value.depth]

theorem depth_quotation (e : Value) : e.quotation.depth = e.depth + 1 := by
  have := depth_pos e
  simp only [Value.quotation, Value.depth, Value.depths]
  omega

mutual

/-- A value is nested no deeper than it has tokens. -/
theorem Derives.depth_le {ts : List Token} {e : Value} (h : Derives ts e) :
    e.depth ≤ ts.length := by
  match h with
  | .symbol _ => rw [depth_atom]; exact Nat.le_refl 1
  | .quote _ h =>
    rw [depth_quotation]
    exact Nat.succ_le_succ h.depth_le
  | .list _ _ h =>
    have := h.depths_le
    simp only [Value.depth, List.length_cons, List.length_append]
    omega

theorem Forms.depths_le {ts : List Token} {es : List Value} (h : Forms ts es) :
    Value.depths es ≤ ts.length := by
  match h with
  | .nil => exact Nat.le_refl 0
  | .cons hd hs =>
    have h₁ := hd.depth_le
    have h₂ := hs.depths_le
    simp only [Value.depths, List.length_append]
    omega

end

mutual

/-- The reader makes nothing but source data. -/
theorem Derives.isSource {ts : List Token} {e : Value} (h : Derives ts e) : e.IsSource := by
  match h with
  | .symbol _ =>
    unfold atom
    split
    · exact .symbol _
    · split
      · exact .number _
      · exact .symbol _
  | .quote _ h =>
    have he := h.isSource
    refine .list fun v hv => ?_
    rcases List.mem_pair.1 hv with rfl | rfl
    · exact .symbol _
    · exact he
  | .list _ _ h => exact .list h.isSource

theorem Forms.isSource {ts : List Token} {es : List Value} (h : Forms ts es) :
    ∀ e ∈ es, e.IsSource := by
  match h with
  | .nil => simp
  | .cons hd hs => exact List.forall_mem_cons.2 ⟨hd.isSource, hs.isSource⟩

end

theorem Derives.ne_nil {ts : List Token} {e : Value} (h : Derives ts e) : ts ≠ [] := by
  cases h <;> nofun

/-- From the open forms `ps`, the machine takes in all of the tokens, and nothing is finished
before the last of them. -/
inductive Takes (bound : Nat) : List Pending → List Token → Progress → Prop where
  | last {ps : List Pending} {t : Token} {r : Progress} (h : accept bound ps t = .ok r) :
      Takes bound ps [t] r
  | more {ps ps' : List Pending} {t : Token} {ts : List Token} {r : Progress}
      (h : accept bound ps t = .ok (.more ps')) (hs : Takes bound ps' ts r) :
      Takes bound ps (t :: ts) r

variable {bound : Nat}

theorem Takes.append {ps ps' : List Pending} {ts us : List Token} {r : Progress}
    (h : Takes bound ps ts (.more ps')) (h' : Takes bound ps' us r) :
    Takes bound ps (ts ++ us) r := by
  generalize hr : Progress.more ps' = r' at h
  induction h with
  | last h => subst hr; exact .more h h'
  | more h _ ih => exact .more h (ih hr)

theorem Takes.readFrom_eq {ps : List Pending} {ts : List Token} {v : Value}
    (h : Takes bound ps ts (.done v)) (rest : List Token) :
    readFrom bound ps (ts ++ rest) = (.ok v, rest) := by
  generalize hr : Progress.done v = r at h
  induction h with
  | last h => subst hr; simp only [List.cons_append, List.nil_append, readFrom, h]
  | more h _ ih => simp only [List.cons_append, readFrom, h, ih hr]

theorem Takes.readAllFrom_eq {ps : List Pending} {ts : List Token} {v : Value}
    (h : Takes bound ps ts (.done v)) (read : List Value) (rest : List Token) :
    readAllFrom bound read ps (ts ++ rest) = readAllFrom bound (v :: read) [] rest := by
  generalize hr : Progress.done v = r at h
  induction h with
  | last h => subst hr; simp only [List.cons_append, List.nil_append, readAllFrom, h]
  | more h _ ih => simp only [List.cons_append, readAllFrom, h, ih hr]

mutual

/-- What is derived is taken in, as far as the bound on nesting allows. -/
theorem Derives.takes {ts : List Token} {e : Value} (h : Derives ts e) (ps : List Pending)
    (hb : ps.length + e.depth ≤ bound) : Takes bound ps ts (complete e ps) := by
  match h with
  | .symbol ht =>
    rw [depth_atom] at hb
    exact .last (by simp only [accept, ht, show ¬ bound ≤ ps.length by omega, ↓reduceIte])
  | .quote ht h =>
    rw [depth_quotation] at hb
    refine .more ?_ (h.takes (.quoted :: ps) (by rw [List.length_cons]; omega))
    simp only [accept, ht, show ¬ bound ≤ ps.length by omega, ↓reduceIte]
  | .list ht hu h =>
    rw [Value.depth] at hb
    refine .more ?_ (h.takes ps [] (by omega) (.last ?_))
    · simp only [accept, ht, show ¬ bound ≤ ps.length by omega, ↓reduceIte]
    · simp only [accept, hu, List.append_nil, List.reverse_reverse]

theorem Forms.takes {ts : List Token} {es : List Value} (h : Forms ts es) (ps : List Pending)
    (vs : List Value) (hb : ps.length + 1 + Value.depths es ≤ bound) {us : List Token}
    {r : Progress} (hu : Takes bound (.items (es.reverse ++ vs) :: ps) us r) :
    Takes bound (.items vs :: ps) (ts ++ us) r := by
  match h with
  | .nil => exact hu
  | .cons hd hs =>
    rw [Value.depths] at hb
    rw [List.append_assoc]
    refine (hd.takes (.items vs :: ps) ?_).append (hs.takes ps _ ?_ ?_)
    · rw [List.length_cons]; omega
    · omega
    · rw [List.reverse_cons, List.append_assoc] at hu; exact hu

end

/-- The tokens that have led to open forms: a quote mark for each quotation, and for each list its
open parenthesis and the tokens of its members so far. -/
inductive Open : List Token → List Pending → Prop where
  | nil : Open [] []
  | quoted {ts : List Token} {ps : List Pending} {t : Token} (h : Open ts ps)
      (ht : t.kind = .quote) : Open (ts ++ [t]) (.quoted :: ps)
  | items {ts us : List Token} {ps : List Pending} {t : Token} {vs : List Value} (h : Open ts ps)
      (ht : t.kind = .openParen) (hvs : Forms us vs.reverse) :
      Open (ts ++ t :: us) (.items vs :: ps)

/-- What progress after some tokens means in the grammar. -/
def Progress.Reached (ts : List Token) : Progress → Prop
  | .done v => Derives ts v
  | .more ps => Open ts ps

theorem Open.complete {ts us : List Token} {ps : List Pending} {v : Value} (h : Open ts ps)
    (hv : Derives us v) : (complete v ps).Reached (ts ++ us) := by
  induction h generalizing us v with
  | nil => exact hv
  | quoted _ ht ih =>
    rw [List.append_assoc]
    exact ih (.quote ht hv)
  | @items ts us' ps t vs h ht hvs _ =>
    rw [List.append_assoc, List.cons_append]
    refine .items h ht ?_
    rw [List.reverse_cons]
    exact hvs.append (.single hv)

/-- One token takes the machine from tokens to tokens with one more. -/
theorem Open.accept {ts : List Token} {ps : List Pending} {t : Token} {r : Progress}
    (h : Open ts ps) (hr : accept bound ps t = .ok r) : r.Reached (ts ++ [t]) := by
  unfold Reader.accept at hr
  split at hr
  · rename_i vs outer hkind
    cases hr
    cases h with
    | @items ts us _ t' _ h ht hvs =>
      rw [List.append_assoc, List.cons_append]
      exact h.complete (.list ht hkind hvs)
  · split at hr
    · cases hr
    · split at hr
      · rename_i hkind
        cases hr
        exact h.complete (.symbol hkind)
      · rename_i hkind
        cases hr
        exact .quoted h hkind
      · rename_i hkind
        cases hr
        exact .items h hkind .nil
      · cases hr
      · cases hr

/-- A value that is read is derived from the tokens that are used up. -/
theorem Open.readFrom {ts us rest : List Token} {ps : List Pending} {v : Value} (h : Open us ps)
    (hr : readFrom bound ps ts = (.ok v, rest)) :
    ∃ ts', ts = ts' ++ rest ∧ Derives (us ++ ts') v := by
  induction ts generalizing us ps with
  | nil => cases hr
  | cons t ts ih =>
    unfold Reader.readFrom at hr
    split at hr
    · rename_i w hw
      cases hr
      exact ⟨[t], rfl, h.accept hw⟩
    · rename_i ps' hps'
      obtain ⟨ts', rfl, hd⟩ := ih (h.accept hps') hr
      rw [List.append_assoc] at hd
      exact ⟨t :: ts', rfl, hd⟩
    · cases hr

/-- Values that are read to the end are derived from all the tokens. -/
theorem Open.readAllFrom {ts us : List Token} {ps : List Pending} {read es : List Value}
    (h : Open us ps) (hr : (readAllFrom bound read ps ts).1 = .ok es) :
    ∃ fs, es = read.reverse ++ fs ∧ Forms (us ++ ts) fs := by
  induction ts generalizing us ps read with
  | nil =>
    cases h with
    | nil => cases hr; exact ⟨[], (List.append_nil _).symm, .nil⟩
    | quoted => cases hr
    | items => cases hr
  | cons t ts ih =>
    rw [Reader.readAllFrom] at hr
    split at hr
    · rename_i v hv
      obtain ⟨fs, rfl, hfs⟩ := ih .nil hr
      refine ⟨v :: fs, by simp, ?_⟩
      have hd : Derives (us ++ [t]) v := h.accept hv
      have hcons := Forms.cons hd hfs
      rwa [List.nil_append, List.append_assoc] at hcons
    · rename_i ps' hps'
      obtain ⟨fs, rfl, hfs⟩ := ih (h.accept hps') hr
      rw [List.append_assoc] at hfs
      exact ⟨fs, rfl, hfs⟩
    · cases hr

/-- A derived sequence is read, as far as the bound on nesting allows. -/
theorem Forms.readAllFrom_eq {ts : List Token} {es : List Value} (h : Forms ts es)
    (hb : Value.depths es ≤ bound) (read : List Value) (rest : List Token) :
    readAllFrom bound read [] (ts ++ rest) = readAllFrom bound (es.reverse ++ read) [] rest := by
  induction es generalizing ts read with
  | nil => cases h; rfl
  | cons e es ih =>
    cases h with
    | cons hd hs =>
      rw [Value.depths] at hb
      have htakes : Takes bound [] _ (.done e) :=
        hd.takes [] (by simp only [List.length_nil]; omega)
      rw [List.append_assoc, htakes.readAllFrom_eq, ih hs (by omega), List.reverse_cons,
        List.append_assoc]
      rfl

/-- No derivation is the beginning of another one. -/
theorem Derives.prefix_free {ts us rest rest' : List Token} {e f : Value} (h : Derives ts e)
    (h' : Derives us f) (heq : ts ++ rest = us ++ rest') : ts = us ∧ e = f ∧ rest = rest' := by
  have ht : Takes (max e.depth f.depth) [] ts (.done e) :=
    h.takes [] (by simp only [List.length_nil]; omega)
  have hu : Takes (max e.depth f.depth) [] us (.done f) :=
    h'.takes [] (by simp only [List.length_nil]; omega)
  have hread := ht.readFrom_eq rest
  rw [heq, hu.readFrom_eq rest'] at hread
  cases hread
  exact ⟨List.append_cancel_right heq, rfl, rfl⟩

/-- Tokens split into tokens of values in one way only. -/
theorem forall₂_derives_unique {tss uss : List (List Token)} {es fs : List Value}
    (h : List.Forall₂ Derives tss es) (h' : List.Forall₂ Derives uss fs)
    (heq : tss.flatten = uss.flatten) : tss = uss ∧ es = fs := by
  induction h generalizing uss fs with
  | nil =>
    cases h' with
    | nil => exact ⟨rfl, rfl⟩
    | cons hd _ => exact absurd (List.append_eq_nil_iff.1 heq.symm).1 hd.ne_nil
  | cons hd _ ih =>
    cases h' with
    | nil => exact absurd (List.append_eq_nil_iff.1 heq).1 hd.ne_nil
    | cons hd' hs' =>
      obtain ⟨rfl, rfl, hrest⟩ := hd.prefix_free hd' heq
      obtain ⟨rfl, rfl⟩ := ih hs' hrest
      exact ⟨rfl, rfl⟩

/-- A larger bound on nesting only removes the fault of nesting too deep. -/
theorem accept_mono {bound' : Nat} (hle : bound ≤ bound') (ps : List Pending) (t : Token) :
    accept bound ps t = .error .tooDeep ∨ accept bound ps t = accept bound' ps t := by
  unfold accept
  split
  · exact .inr rfl
  · split
    · exact .inl rfl
    · rw [if_neg (by omega)]
      exact .inr rfl

theorem accept_ok_mono {bound' : Nat} (hle : bound ≤ bound') {ps : List Pending} {t : Token}
    {r : Progress} (h : accept bound ps t = .ok r) : accept bound' ps t = .ok r := by
  rcases accept_mono hle ps t with hdeep | hsame
  · simp [h] at hdeep
  · rw [← hsame, h]

theorem readFrom_mono {bound' : Nat} (hle : bound ≤ bound') (ps : List Pending)
    (ts : List Token) :
    (readFrom bound ps ts).1 = .error .tooDeep ∨ readFrom bound ps ts = readFrom bound' ps ts := by
  induction ts generalizing ps with
  | nil => exact .inr rfl
  | cons t ts ih =>
    unfold readFrom
    rcases accept_mono hle ps t with h | h
    · rw [h]; exact .inl rfl
    · rw [h]
      split
      · exact .inr rfl
      · exact ih _
      · exact .inr rfl

theorem readAllFrom_mono {bound' : Nat} (hle : bound ≤ bound') (read : List Value)
    (ps : List Pending) (ts : List Token) :
    (readAllFrom bound read ps ts).1 = .error .tooDeep ∨
      readAllFrom bound read ps ts = readAllFrom bound' read ps ts := by
  induction ts generalizing read ps with
  | nil => cases ps <;> exact .inr rfl
  | cons t ts ih =>
    rw [readAllFrom, readAllFrom]
    rcases accept_mono hle ps t with h | h
    · rw [h]; exact .inl rfl
    · rw [h]
      split
      · exact ih _ _
      · exact ih _ _
      · exact .inr rfl

theorem length_complete {v : Value} {ps ps' : List Pending} (h : complete v ps = .more ps') :
    ps'.length ≤ ps.length := by
  induction ps generalizing v with
  | nil => cases h
  | cons p ps ih =>
    cases p with
    | quoted =>
      have := ih h
      rw [List.length_cons]
      omega
    | items vs => cases h; exact Nat.le_refl _

/-- A token opens at most one form, and goes too deep only at the bound. -/
theorem accept_depth {ps : List Pending} (t : Token) (hb : ps.length < bound) :
    accept bound ps t ≠ .error .tooDeep ∧
      ∀ ps', accept bound ps t = .ok (.more ps') → ps'.length ≤ ps.length + 1 := by
  unfold accept
  split
  · refine ⟨nofun, fun ps' h => ?_⟩
    have := length_complete (Except.ok.inj h)
    rw [List.length_cons]
    omega
  · rw [if_neg (by omega)]
    split
    · refine ⟨nofun, fun ps' h => ?_⟩
      have := length_complete (Except.ok.inj h)
      omega
    · exact ⟨nofun, fun ps' h => by cases h; exact Nat.le_refl _⟩
    · exact ⟨nofun, fun ps' h => by cases h; exact Nat.le_refl _⟩
    · exact ⟨nofun, nofun⟩
    · exact ⟨nofun, nofun⟩

theorem readFrom_ne_tooDeep {ps : List Pending} {ts : List Token}
    (hb : ps.length + ts.length ≤ bound) : (readFrom bound ps ts).1 ≠ .error .tooDeep := by
  induction ts generalizing ps with
  | nil => nofun
  | cons t ts ih =>
    rw [List.length_cons] at hb
    obtain ⟨hne, hlen⟩ := accept_depth t (show ps.length < bound by omega)
    unfold readFrom
    split
    · nofun
    · rename_i ps' hps'
      have := hlen ps' hps'
      exact ih (by omega)
    · rename_i e he
      rintro ⟨⟩
      exact hne he

theorem readAllFrom_ne_tooDeep {read : List Value} {ps : List Pending} {ts : List Token}
    (hb : ps.length + ts.length ≤ bound) :
    (readAllFrom bound read ps ts).1 ≠ .error .tooDeep := by
  induction ts generalizing read ps with
  | nil => cases ps <;> nofun
  | cons t ts ih =>
    rw [List.length_cons] at hb
    obtain ⟨hne, hlen⟩ := accept_depth t (show ps.length < bound by omega)
    rw [readAllFrom]
    split
    · exact ih (by simp only [List.length_nil]; omega)
    · rename_i ps' hps'
      have := hlen ps' hps'
      exact ih (by omega)
    · rename_i e he
      rintro ⟨⟩
      exact hne he

/-- The faults of one token of the four kinds of the scanner. -/
theorem accept_error {ps : List Pending} {t : Token} {e : ReadFault}
    (hkind : ∀ name, t.kind ≠ .other name) (h : accept bound ps t = .error e) :
    e = .tooDeep ∨ e = .unexpectedClose := by
  unfold accept at h
  split at h
  · cases h
  · split at h
    · cases h; exact .inl rfl
    · split at h <;> cases h
      · exact .inr rfl
      · rename_i name hname
        exact absurd hname (hkind name)

/-- The faults of reading, when all tokens are of the four kinds of the scanner. -/
theorem readAllFrom_error {read : List Value} {ps : List Pending} {ts : List Token} {e : ReadFault}
    (hkind : ∀ t ∈ ts, ∀ name, t.kind ≠ .other name)
    (h : (readAllFrom bound read ps ts).1 = .error e) :
    e = .tooDeep ∨ e = .unexpectedEnd ∨ e = .unexpectedClose := by
  induction ts generalizing read ps with
  | nil =>
    cases ps with
    | nil => cases h
    | cons p ps => cases h; exact .inr (.inl rfl)
  | cons t ts ih =>
    rw [readAllFrom] at h
    split at h
    · exact ih (fun u hu => hkind u (by simp [hu])) h
    · exact ih (fun u hu => hkind u (by simp [hu])) h
    · rename_i e' he
      cases h
      exact (accept_error (hkind t (by simp)) he).imp_right .inr

end Lisplet.Reader

namespace Lisplet

open Reader

theorem parseAll_error {bound : Nat} {source : String} {e : ReadFault}
    (h : parseAll bound source = .error e) :
    e = .tooDeep ∨ e = .unexpectedEnd ∨ e = .unexpectedClose := by
  rw [parseAll_eq] at h
  exact readAllFrom_error (fun _ ht => lex_kind ht) h

theorem parseAll_ne_tooDeep {bound : Nat} {source : String} (h : (lex source).length ≤ bound) :
    parseAll bound source ≠ .error .tooDeep := by
  rw [parseAll_eq]
  exact readAllFrom_ne_tooDeep (by simpa using h)

theorem forms_of_parseAll {bound : Nat} {source : String} {es : List Value}
    (h : parseAll bound source = .ok es) : Forms (lex source) es := by
  rw [parseAll_eq] at h
  obtain ⟨fs, rfl, hfs⟩ := Open.nil.readAllFrom h
  exact hfs

/-- The text reads as a sequence of values exactly if its tokens do, as far as nesting allows. -/
theorem parseAll_ok_iff {bound : Nat} {source : String}
    (hb : parseAll bound source ≠ .error .tooDeep) {es : List Value} :
    parseAll bound source = .ok es ↔ Forms (lex source) es := by
  constructor
  · exact forms_of_parseAll
  · intro h
    have hmono := readAllFrom_mono (Nat.le_max_left bound (Value.depths es)) [] [] (lex source)
    have hread := h.readAllFrom_eq (Nat.le_max_right bound (Value.depths es)) [] []
    rw [List.append_nil] at hread
    rw [parseAll_eq] at hb ⊢
    rw [hmono.resolve_left hb, hread]
    simp [readAllFrom]

theorem parse_ok_iff {bound : Nat} {source : String}
    (hb : parse bound source ≠ .error .tooDeep) {e : Value} :
    parse bound source = .ok e ↔ ∃ ts rest, lex source = ts ++ rest ∧ Derives ts e := by
  constructor
  · intro h
    rw [parse_eq] at h
    obtain ⟨ts, hts, hd⟩ := Open.nil.readFrom (Prod.ext h rfl)
    exact ⟨ts, _, hts, hd⟩
  · rintro ⟨ts, rest, hlex, hd⟩
    have hmono := readFrom_mono (Nat.le_max_left bound e.depth) [] (lex source)
    have htakes : Takes (max bound e.depth) [] ts (.done e) :=
      hd.takes [] (by simp only [List.length_nil]; omega)
    rw [parse_eq] at hb ⊢
    rw [hmono.resolve_left hb, hlex, htakes.readFrom_eq rest]

/-- The reader accepts exactly its grammar. Nesting apart, all of a text is read as the values
whose tokens, one after another, are the tokens of the text, and is refused if there are none; the
first value is read whatever follows its tokens. Tokens split into tokens of values in one way
only, and a bound as large as the number of tokens is never met. -/
theorem reader_accepts_grammar (bound : Nat) (source : String) :
    (parseAll bound source ≠ .error .tooDeep →
      (∀ es, parseAll bound source = .ok es ↔
        ∃ tss : List (List Token), tss.flatten = lex source ∧ List.Forall₂ Derives tss es) ∧
      ((¬ ∃ es, ∃ tss : List (List Token), tss.flatten = lex source ∧
          List.Forall₂ Derives tss es) ↔
        parseAll bound source = .error .unexpectedEnd ∨
          parseAll bound source = .error .unexpectedClose)) ∧
    (parse bound source ≠ .error .tooDeep →
      ∀ e, parse bound source = .ok e ↔ ∃ ts rest, lex source = ts ++ rest ∧ Derives ts e) ∧
    (∀ (tss uss : List (List Token)) (es fs : List Value), tss.flatten = lex source →
      uss.flatten = lex source → List.Forall₂ Derives tss es → List.Forall₂ Derives uss fs →
      tss = uss ∧ es = fs) ∧
    ((lex source).length ≤ bound →
      parseAll bound source ≠ .error .tooDeep ∧ parse bound source ≠ .error .tooDeep) := by
  refine ⟨fun hb => ⟨fun es => ?_, ?_⟩, fun hb e => parse_ok_iff hb, ?_, fun hlen => ⟨?_, ?_⟩⟩
  · rw [parseAll_ok_iff hb, forms_iff]
  · simp only [← forms_iff, ← parseAll_ok_iff hb]
    cases h : parseAll bound source with
    | ok es => simp
    | error e =>
      rcases parseAll_error h with rfl | rfl | rfl
      · exact absurd h hb
      · simp
      · simp
  · intro tss uss es fs htss huss hes hfs
    exact forall₂_derives_unique hes hfs (htss.trans huss.symm)
  · exact parseAll_ne_tooDeep hlen
  · rw [parse_eq]
    exact readFrom_ne_tooDeep (by simpa using hlen)

end Lisplet
