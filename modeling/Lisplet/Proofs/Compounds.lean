import Lisplet.Proofs.Incomplete

/-! Compound texts. A complete text can be followed by another on the next line, put in parentheses
or quoted, and then reads as one expects from what it reads as by itself. The end of a line stands
wherever something follows the text, since the text may end in a word or in a comment. Nesting is
left aside. -/

namespace Lisplet

open Reader Scanner

/-- What was read before only stands in front of what is read. -/
theorem Reader.readAllFrom_eq_map (bound : Nat) (read : List Value) (ps : List Pending)
    (ts : List Token) :
    (readAllFrom bound read ps ts).1 =
      (readAllFrom bound [] ps ts).1.map (read.reverse ++ ·) := by
  induction ts generalizing read ps with
  | nil =>
    cases ps with
    | nil => simp [readAllFrom, Except.map]
    | cons p ps => rfl
  | cons t ts ih =>
    rw [readAllFrom, readAllFrom]
    split
    · rename_i v _
      rw [ih (v :: read), ih [v]]
      cases (readAllFrom bound [] [] ts).1 <;> simp [Except.map]
    · exact ih _ _
    · rfl

theorem reads_ok_iff {source : String} {es : List Value} :
    Reads source (.ok es) ↔ Forms (lex source) es := by
  constructor
  · rintro ⟨-, bound, h⟩
    exact forms_of_parseAll h
  · intro h
    exact ⟨nofun, _, (parseAll_ok_iff (parseAll_ne_tooDeep (Nat.le_refl _))).2 h⟩

/-- A text after a complete one: what it reads as comes after the values of the first, and its fault
is the fault of both. -/
theorem Reads.append {a b : String} {es : List Value} {r : Except ReadFault (List Value)}
    (ha : Reads a (.ok es)) (hb : Reads b r) :
    Reads (a ++ "\n" ++ b) (r.map (es ++ ·)) := by
  obtain ⟨bound, hbound⟩ := hb.eventually
  refine ⟨?_, max (Value.depths es) bound, ?_⟩
  · have hr := hb.1
    cases r with
    | ok fs => nofun
    | error cause => simpa [Except.map] using hr
  · have hread := hbound _ (Nat.le_max_right (Value.depths es) bound)
    rw [parseAll_eq] at hread ⊢
    rw [lex_append_newline, (reads_ok_iff.1 ha).readAllFrom_eq (Nat.le_max_left _ _),
      readAllFrom_eq_map, hread]
    simp

theorem lex_parenthesized (a : String) :
    lex ("(" ++ a ++ "\n)") = ⟨.openParen, "("⟩ :: (lex a ++ [⟨.closeParen, ")"⟩]) := by
  have hclose : tokens .gap [')'] = [⟨.closeParen, ")"⟩] := tokens_close []
  simp [lex_eq_tokens, tokens_open, tokens_append_newline, hclose]

theorem lex_quoted (a : String) : lex ("'" ++ a) = ⟨.quote, "'"⟩ :: lex a := by
  simp [lex_eq_tokens, tokens_quote]

theorem lex_quote_word (a : String) : lex ("quote " ++ a) = ⟨.symbol, "quote"⟩ :: lex a := by
  have hplain : ∀ c ∈ "quote".toList, Plain c := by simp [Plain, Text.isBlank, mark?]
  have hword : tokens .gap ("quote".toList ++ ' ' :: a.toList) =
      ⟨.symbol, "quote"⟩ :: tokens .gap (' ' :: a.toList) :=
    tokens_gap_word (by decide) hplain (breaks_blank (by decide) _).stopsAt
  rw [tokens_blank (by decide)] at hword
  simpa [lex_eq_tokens] using hword

/-- A complete text in parentheses is the list of what it reads as. -/
theorem Reads.parenthesized {a : String} {es : List Value} (h : Reads a (.ok es)) :
    Reads ("(" ++ a ++ "\n)") (.ok [.list es]) := by
  rw [reads_ok_iff] at h ⊢
  rw [lex_parenthesized]
  exact .single (.list rfl rfl h)

/-- A quote mark in front of a text quotes its first value. -/
theorem Reads.quoted {a : String} {e : Value} {rest : List Value} (h : Reads a (.ok (e :: rest))) :
    Reads ("'" ++ a) (.ok (e.quotation :: rest)) := by
  rw [reads_ok_iff] at h ⊢
  rw [lex_quoted]
  generalize lex a = ts at h ⊢
  cases h with
  | cons hd hs => exact .cons (.quote rfl hd) hs

/-- The quotation of a value can be written out. -/
theorem Reads.quotation {a : String} {e : Value} (h : Reads a (.ok [e])) :
    Reads ("(quote " ++ a ++ "\n)") (.ok [e.quotation]) := by
  have hword : Reads ("quote " ++ a) (.ok [.symbol "quote", e]) := by
    rw [reads_ok_iff] at h ⊢
    rw [lex_quote_word]
    exact .cons (.symbol rfl) h
  have hlist := hword.parenthesized
  rwa [← String.append_assoc] at hlist

/-- The reader is compositional. Texts on separate lines have their tokens one after the other. So a
complete text before another one reads as its values before those of the other, or is refused like
the other; in parentheses it reads as the list of its values; and a quote mark in front of it quotes
the first of them, as the form `(quote ...)` does with a single one. -/
theorem reading_composes :
    (∀ a b, lex (a ++ "\n" ++ b) = lex a ++ lex b) ∧
    ∀ a es, Reads a (.ok es) →
      (∀ b fs, Reads b (.ok fs) → Reads (a ++ "\n" ++ b) (.ok (es ++ fs))) ∧
      (∀ b cause, Reads b (.error cause) → Reads (a ++ "\n" ++ b) (.error cause)) ∧
      Reads ("(" ++ a ++ "\n)") (.ok [.list es]) ∧
      ∀ e rest, es = e :: rest →
        Reads ("'" ++ a) (.ok (.list [.symbol "quote", e] :: rest)) ∧
        (rest = [] → Reads ("(quote " ++ a ++ "\n)") (.ok [.list [.symbol "quote", e]])) := by
  refine ⟨lex_append_newline, fun a es ha => ⟨fun b fs hb => ha.append hb, fun b cause hb =>
    ha.append hb, ha.parenthesized, ?_⟩⟩
  rintro e rest rfl
  refine ⟨ha.quoted, ?_⟩
  rintro rfl
  exact ha.quotation

/-- A text that ends in a comment, before others, in parentheses and quoted. -/
theorem commented_text_composes :
    Reads "x ; (" (.ok [.symbol "x"]) ∧
      Reads ("x ; (" ++ "\n" ++ "y") (.ok [.symbol "x", .symbol "y"]) ∧
      Reads ("x ; (" ++ "\n" ++ "y)") (.error .unexpectedClose) ∧
      Reads ("(" ++ "x ; (" ++ "\n)") (.ok [.list [.symbol "x"]]) ∧
      Reads ("(quote " ++ "x ; (" ++ "\n)") (.ok [.list [.symbol "quote", .symbol "x"]]) := by
  have hx : Reads "x ; (" (.ok [.symbol "x"]) := ⟨nofun, 9, by rw [parseAll_eq_scan]; rfl⟩
  have hy : Reads "y" (.ok [.symbol "y"]) := ⟨nofun, 9, by rw [parseAll_eq_scan]; rfl⟩
  have hclose : Reads "y)" (.error .unexpectedClose) := ⟨nofun, 9, by rw [parseAll_eq_scan]; rfl⟩
  obtain ⟨happend, hfault, hlist, hquote⟩ := reading_composes.2 _ _ hx
  exact ⟨hx, happend _ _ hy, hfault _ _ hclose, hlist, (hquote _ _ rfl).2 rfl⟩

end Lisplet
