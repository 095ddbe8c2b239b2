import Lisplet.Proofs.Lexing

/-! Source text taken apart. A text is a gap, a token, a gap, a token and so on, up to a last gap.
Gaps are blanks and comments, and a comment runs to the end of its line. This says nothing about how
a text is scanned, and yet every text can be taken apart in one way only: each gap, comment and word
is as long as it can be. The scanner finds the tokens of that one way, so no character of a text is
lost, doubled or moved from one token to another. -/

namespace Lisplet

open Scanner Text

/-- The tokens that can stand in a text: the three marks, and words. -/
inductive Token.Proper : Token → Prop where
  | openParen : Proper ⟨.openParen, "("⟩
  | closeParen : Proper ⟨.closeParen, ")"⟩
  | quote : Proper ⟨.quote, "'"⟩
  | symbol {w : String} (hne : w ≠ "") (hw : ∀ c ∈ w.toList, isBlank c = false ∧ c ∉ delimiters) :
      Proper ⟨.symbol, w⟩

/-- A line ends here: there is no more text, or the next character is a newline. -/
def EndsLine (cs : List Char) : Prop :=
  ∀ c, cs.head? = some c → c = '\n'

/-- Blanks and comments in front of `rest`. A comment is a semicolon and all that follows it in its
line. -/
inductive IsGap (rest : List Char) : List Char → Prop where
  | nil : IsGap rest []
  | blank {c : Char} {gap : List Char} (hc : isBlank c = true) (h : IsGap rest gap) :
      IsGap rest (c :: gap)
  | comment {line gap : List Char} (hline : '\n' ∉ line) (hend : EndsLine (gap ++ rest))
      (h : IsGap rest gap) : IsGap rest (';' :: (line ++ gap))

/-- Gaps and tokens in turn. -/
inductive Segments where
  | last (gap : List Char)
  | before (gap : List Char) (t : Token) (rest : Segments)

namespace Segments

def text : Segments → List Char
  | last gap => gap
  | before gap t rest => gap ++ (t.text.toList ++ rest.text)

def tokens : Segments → List Token
  | last _ => []
  | before _ t rest => t :: rest.tokens

/-- A word stands in front, without a gap before it. -/
def StartsWord : Segments → Prop
  | last _ => False
  | before gap t _ => gap = [] ∧ t.kind = .symbol

/-- The gaps are gaps, the tokens are proper, and words do not touch. -/
def Valid : Segments → Prop
  | last gap => IsGap [] gap
  | before gap t rest =>
    IsGap (t.text.toList ++ rest.text) gap ∧ t.Proper ∧
      (t.kind = .symbol → ¬ rest.StartsWord) ∧ rest.Valid

end Segments

/-- Every text begins with a longest run of a class. -/
theorem exists_run (p : Char → Prop) (cs : List Char) :
    ∃ ds rest, cs = ds ++ rest ∧ (∀ c ∈ ds, p c) ∧ StopsAt p rest := by
  induction cs with
  | nil => exact ⟨[], [], rfl, nofun, nofun⟩
  | cons c cs ih =>
    by_cases hc : p c
    · obtain ⟨ds, rest, rfl, hds, hrest⟩ := ih
      exact ⟨c :: ds, rest, rfl, List.forall_mem_cons.2 ⟨hc, hds⟩, hrest⟩
    · refine ⟨[], c :: cs, rfl, nofun, fun d hd => ?_⟩
      rw [List.head?_cons, Option.some.injEq] at hd
      exact hd ▸ hc

/-- The longest run of a class in front of a text is one only. -/
theorem run_unique {p : Char → Prop} {as bs us vs : List Char} (ha : ∀ c ∈ as, p c)
    (hb : ∀ c ∈ bs, p c) (hu : StopsAt p us) (hv : StopsAt p vs) (h : as ++ us = bs ++ vs) :
    as = bs ∧ us = vs := by
  induction as generalizing bs with
  | nil =>
    rcases bs with _ | ⟨b, bs⟩
    · exact ⟨rfl, h⟩
    · rw [List.nil_append, List.cons_append] at h
      exact absurd (hb b (by simp)) (hu b (by simp [h]))
  | cons a as ih =>
    rcases bs with _ | ⟨b, bs⟩
    · rw [List.nil_append, List.cons_append] at h
      exact absurd (ha a (by simp)) (hv a (by simp [← h]))
    · rw [List.cons_append, List.cons_append, List.cons.injEq] at h
      obtain ⟨rfl, h⟩ := h
      obtain ⟨rfl, rfl⟩ := ih (fun c hc => ha c (by simp [hc])) (fun c hc => hb c (by simp [hc])) h
      exact ⟨rfl, rfl⟩

/-- Characters that begin a gap. -/
def OpensGap (c : Char) : Prop :=
  isBlank c = true ∨ c = ';'

theorem IsGap.opensGap {rest gap : List Char} (h : IsGap rest gap) :
    ∀ c, gap.head? = some c → OpensGap c := by
  intro c hc
  cases h with
  | nil => simp at hc
  | blank hblank _ =>
    simp only [List.head?_cons, Option.some.injEq] at hc
    exact .inl (hc ▸ hblank)
  | comment _ _ _ =>
    simp only [List.head?_cons, Option.some.injEq] at hc
    exact .inr hc.symm

/-- A gap is as long as it can be. -/
theorem IsGap.unique {gap gap' rest rest' : List Char} (h : IsGap rest gap)
    (h' : IsGap rest' gap') (hrest : StopsAt OpensGap rest) (hother : StopsAt OpensGap rest')
    (heq : gap ++ rest = gap' ++ rest') : gap = gap' ∧ rest = rest' := by
  induction h generalizing gap' with
  | nil =>
    rcases gap' with _ | ⟨c, gap'⟩
    · exact ⟨rfl, heq⟩
    · rw [List.nil_append, List.cons_append] at heq
      exact absurd (h'.opensGap c rfl) (hrest c (by simp [heq]))
  | @blank c gap hc h ih =>
    cases h' with
    | nil =>
      rw [List.nil_append, List.cons_append] at heq
      exact absurd (.inl hc) (hother c (by simp [← heq]))
    | blank _ h' =>
      rw [List.cons_append, List.cons_append, List.cons.injEq] at heq
      obtain ⟨rfl, rfl⟩ := ih h' heq.2
      exact ⟨by rw [heq.1], rfl⟩
    | comment _ _ _ =>
      rw [List.cons_append, List.cons_append, List.cons.injEq] at heq
      exact absurd (heq.1 ▸ hc) (by decide)
  | @comment line gap hline hend h ih =>
    cases h' with
    | nil =>
      rw [List.nil_append, List.cons_append] at heq
      exact absurd (.inr rfl) (hother ';' (by simp [← heq]))
    | blank hc' _ =>
      rw [List.cons_append, List.cons_append, List.cons.injEq] at heq
      exact absurd (heq.1 ▸ hc') (by decide)
    | @comment line' gap' hline' hend' h' =>
      simp only [List.cons_append, List.append_assoc, List.cons.injEq, true_and] at heq
      obtain ⟨rfl, htail⟩ := run_unique (p := (· ≠ '\n')) (fun c hc hnl => hline (hnl ▸ hc))
        (fun c hc hnl => hline' (hnl ▸ hc)) (fun c hc hne => hne (hend c hc))
        (fun c hc hne => hne (hend' c hc)) heq
      obtain ⟨rfl, rfl⟩ := ih h' htail
      exact ⟨rfl, rfl⟩

theorem not_plain_of_opensGap {c : Char} (h : OpensGap c) : ¬ Plain c := by
  intro hplain
  rcases h with hblank | hcomment
  · simp [hplain.1] at hblank
  · exact hplain.2.1 hcomment

theorem mark?_spec {c : Char} {t : Token} (h : mark? c = some t) :
    t.Proper ∧ t.kind ≠ .symbol ∧ t.text.toList = [c] ∧ ¬ OpensGap c ∧ ¬ Plain c := by
  have hplain : ¬ Plain c := fun hplain => by simp [hplain.2.2] at h
  unfold mark? at h
  split at h
  · cases h
    exact ⟨.openParen, nofun, rfl, by unfold OpensGap; decide, hplain⟩
  · cases h
    exact ⟨.closeParen, nofun, rfl, by unfold OpensGap; decide, hplain⟩
  · cases h
    exact ⟨.quote, nofun, rfl, by unfold OpensGap; decide, hplain⟩
  · cases h

/-- A proper token is the mark that a character makes, or a word. -/
theorem Token.Proper.mark_or_word {t : Token} (h : t.Proper) :
    (∃ c, mark? c = some t) ∨
      ∃ c cs, t = ⟨.symbol, String.ofList (c :: cs)⟩ ∧ ∀ d ∈ c :: cs, Plain d := by
  cases h with
  | openParen => exact .inl ⟨'(', rfl⟩
  | closeParen => exact .inl ⟨')', rfl⟩
  | quote => exact .inl ⟨'\'', rfl⟩
  | @symbol w hne hw =>
    obtain ⟨c, cs, hcs⟩ := List.exists_cons_of_ne_nil (mt String.toList_eq_nil_iff.1 hne)
    refine .inr ⟨c, cs, ?_, fun d hd => plain_iff.2 (hw d (hcs ▸ hd))⟩
    rw [← hcs, String.ofList_toList]

theorem Token.Proper.toList_eq_cons {t : Token} (h : t.Proper) :
    ∃ c cs, t.text.toList = c :: cs := by
  rcases h.mark_or_word with ⟨c, hc⟩ | ⟨c, cs, rfl, -⟩
  · exact ⟨c, [], (mark?_spec hc).2.2.1⟩
  · exact ⟨c, cs, String.toList_ofList⟩

/-- The token in front of a text is one only, if a word in front does not go on. -/
theorem Token.Proper.unique {t u : Token} {rest rest' : List Char} (ht : t.Proper) (hu : u.Proper)
    (hrest : t.kind = .symbol → StopsAt Plain rest)
    (hrest' : u.kind = .symbol → StopsAt Plain rest')
    (heq : t.text.toList ++ rest = u.text.toList ++ rest') : t = u ∧ rest = rest' := by
  rcases ht.mark_or_word with ⟨c, hc⟩ | ⟨c, cs, rfl, hcs⟩
  · obtain ⟨-, -, htext, -, hplain⟩ := mark?_spec hc
    rcases hu.mark_or_word with ⟨d, hd⟩ | ⟨d, ds, rfl, hds⟩
    · obtain ⟨-, -, htext', -, -⟩ := mark?_spec hd
      rw [htext, htext', List.singleton_append, List.singleton_append, List.cons.injEq] at heq
      obtain ⟨rfl, rfl⟩ := heq
      exact ⟨Option.some.inj (hc.symm.trans hd), rfl⟩
    · rw [htext, String.toList_ofList, List.singleton_append, List.cons_append,
        List.cons.injEq] at heq
      exact absurd (hds c (by simp [heq.1])) hplain
  · rcases hu.mark_or_word with ⟨d, hd⟩ | ⟨d, ds, rfl, hds⟩
    · obtain ⟨-, -, htext', -, hplain⟩ := mark?_spec hd
      rw [htext', String.toList_ofList, List.singleton_append, List.cons_append,
        List.cons.injEq] at heq
      exact absurd (hcs d (by simp [heq.1])) hplain
    · rw [String.toList_ofList, String.toList_ofList] at heq
      obtain ⟨hword, rfl⟩ := run_unique hcs hds (hrest rfl) (hrest' rfl) heq
      exact ⟨by rw [hword], rfl⟩

theorem Token.Proper.stopsAt {t : Token} (h : t.Proper) (rest : List Char) :
    StopsAt OpensGap (t.text.toList ++ rest) := by
  intro c hc hopens
  rcases h.mark_or_word with ⟨d, hd⟩ | ⟨d, ds, rfl, hds⟩
  · obtain ⟨-, -, htext, hnot, -⟩ := mark?_spec hd
    rw [htext, List.singleton_append, List.head?_cons, Option.some.injEq] at hc
    exact hnot (hc ▸ hopens)
  · rw [String.toList_ofList, List.cons_append, List.head?_cons, Option.some.injEq] at hc
    exact not_plain_of_opensGap hopens (hds c (by simp [hc]))

namespace Segments

variable {seg seg' : Segments}

/-- The gap in front. -/
def gap : Segments → List Char
  | last gap => gap
  | before gap _ _ => gap

/-- The text behind the gap in front. -/
def body : Segments → List Char
  | last _ => []
  | before _ t rest => t.text.toList ++ rest.text

theorem text_eq (seg : Segments) : seg.text = seg.gap ++ seg.body := by
  cases seg with
  | last gap => exact (List.append_nil gap).symm
  | before gap t rest => rfl

theorem Valid.isGap (h : seg.Valid) : IsGap seg.body seg.gap := by
  cases seg with
  | last gap => exact h
  | before gap t rest => exact h.1

theorem Valid.stopsAt_body (h : seg.Valid) : StopsAt OpensGap seg.body := by
  cases seg with
  | last gap => nofun
  | before gap t rest => exact h.2.1.stopsAt rest.text

/-- Words do not touch: where no word stands in front, no word can go on. -/
theorem Valid.stopsAt_text (h : seg.Valid) (hword : ¬ seg.StartsWord) :
    StopsAt Plain seg.text := by
  intro c hc hplain
  rw [text_eq, List.head?_append, Option.or_eq_some_iff] at hc
  rcases hc with hc | ⟨hgap, hc⟩
  · exact not_plain_of_opensGap (h.isGap.opensGap c hc) hplain
  · cases seg with
    | last gap => simp [body] at hc
    | before gap t rest =>
      rcases h.2.1.mark_or_word with ⟨d, hd⟩ | ⟨d, ds, rfl, -⟩
      · obtain ⟨-, -, htext, -, hnot⟩ := mark?_spec hd
        rw [body, htext, List.singleton_append, List.head?_cons, Option.some.injEq] at hc
        exact hnot (hc ▸ hplain)
      · exact hword ⟨List.head?_eq_none_iff.1 hgap, rfl⟩

theorem Valid.not_startsWord (h : seg.Valid) (hstop : StopsAt Plain seg.text) :
    ¬ seg.StartsWord := by
  intro hword
  cases seg with
  | last gap => exact hword
  | before gap t rest =>
    obtain ⟨rfl, hkind⟩ := hword
    rcases h.2.1.mark_or_word with ⟨d, hd⟩ | ⟨d, ds, rfl, hds⟩
    · exact (mark?_spec hd).2.1 hkind
    · exact hstop d (by simp [text]) (hds d (by simp))

/-- A text can be taken apart in one way only. -/
theorem Valid.unique (h : seg.Valid) (h' : seg'.Valid) (heq : seg.text = seg'.text) :
    seg = seg' := by
  induction seg generalizing seg' with
  | last gap =>
    rw [text_eq, text_eq seg'] at heq
    obtain ⟨hgap, hbody⟩ := h.isGap.unique h'.isGap h.stopsAt_body h'.stopsAt_body heq
    cases seg' with
    | last gap' => exact congrArg last hgap
    | before gap' t' rest' =>
      obtain ⟨c, cs, hcs⟩ := h'.2.1.toList_eq_cons
      simp [body, hcs] at hbody
  | before gap t rest ih =>
    rw [text_eq, text_eq seg'] at heq
    obtain ⟨hgap, hbody⟩ := h.isGap.unique h'.isGap h.stopsAt_body h'.stopsAt_body heq
    cases seg' with
    | last gap' =>
      obtain ⟨c, cs, hcs⟩ := h.2.1.toList_eq_cons
      simp [body, hcs] at hbody
    | before gap' t' rest' =>
      obtain ⟨-, ht, hsep, hrest⟩ := h
      obtain ⟨-, ht', hsep', hrest'⟩ := h'
      obtain ⟨rfl, htext⟩ := ht.unique ht' (fun hk => hrest.stopsAt_text (hsep hk))
        (fun hk => hrest'.stopsAt_text (hsep' hk)) hbody
      obtain rfl : gap = gap' := hgap
      rw [ih hrest hrest' htext]

/-- More text in the gap in front. -/
def addGap (more : List Char) : Segments → Segments
  | last gap => last (more ++ gap)
  | before gap t rest => before (more ++ gap) t rest

theorem text_addGap (more : List Char) (seg : Segments) :
    (seg.addGap more).text = more ++ seg.text := by
  cases seg with
  | last gap => rfl
  | before gap t rest => exact List.append_assoc ..

theorem tokens_addGap (more : List Char) (seg : Segments) :
    (seg.addGap more).tokens = seg.tokens := by
  cases seg <;> rfl

theorem Valid.addGap (h : seg.Valid) {more : List Char} (hgap : IsGap seg.body (more ++ seg.gap)) :
    (seg.addGap more).Valid := by
  cases seg with
  | last gap => exact hgap
  | before gap t rest => exact ⟨hgap, h.2⟩

end Segments

theorem tokens_line {line rest : List Char} (hline : '\n' ∉ line) (hrest : EndsLine rest) :
    Scanner.tokens .comment (line ++ rest) = Scanner.tokens .gap rest := by
  have hcomment : ∀ c ∈ line, decide (c ≠ '\n') = true := by
    intro c hc
    exact decide_eq_true fun hnl => hline (hnl ▸ hc)
  rw [tokens_comment, List.dropWhile_append_of_pos hcomment]
  rcases rest with _ | ⟨c, rest⟩
  · rfl
  · rw [hrest c rfl]
    rfl

/-- The text can be taken apart, and the scanner finds the tokens. -/
def Scanned (cs : List Char) : Prop :=
  ∃ seg : Segments, seg.Valid ∧ seg.text = cs ∧ seg.tokens = Scanner.tokens .gap cs

theorem Scanned.blank {c : Char} {cs : List Char} (h : Scanned cs) (hc : isBlank c = true) :
    Scanned (c :: cs) := by
  obtain ⟨seg, hvalid, rfl, htokens⟩ := h
  refine ⟨seg.addGap [c], hvalid.addGap (.blank hc hvalid.isGap), ?_, ?_⟩
  · rw [Segments.text_addGap, List.singleton_append]
  · rw [Segments.tokens_addGap, tokens_blank hc, htokens]

theorem Scanned.comment {line rest : List Char} (h : Scanned rest) (hline : '\n' ∉ line)
    (hend : EndsLine rest) : Scanned (';' :: (line ++ rest)) := by
  obtain ⟨seg, hvalid, rfl, htokens⟩ := h
  have hgap : IsGap seg.body (';' :: (line ++ seg.gap)) :=
    .comment hline (seg.text_eq ▸ hend) hvalid.isGap
  refine ⟨seg.addGap (';' :: line), hvalid.addGap hgap, ?_, ?_⟩
  · rw [Segments.text_addGap, List.cons_append]
  · rw [Segments.tokens_addGap, htokens, tokens_semicolon, tokens_line hline hend]

theorem Scanned.mark {c : Char} {cs : List Char} {t : Token} (h : Scanned cs)
    (hc : mark? c = some t) : Scanned (c :: cs) := by
  obtain ⟨seg, hvalid, rfl, htokens⟩ := h
  obtain ⟨hproper, hkind, htext, -, -⟩ := mark?_spec hc
  refine ⟨.before [] t seg, ⟨.nil, hproper, fun h => absurd h hkind, hvalid⟩, ?_, ?_⟩
  · rw [Segments.text, htext, List.nil_append, List.singleton_append]
  · rw [Segments.tokens, htokens, tokens_mark hc]

theorem Scanned.word {w : String} {rest : List Char} (h : Scanned rest) (hne : w ≠ "")
    (hw : ∀ c ∈ w.toList, Plain c) (hrest : StopsAt Plain rest) :
    Scanned (w.toList ++ rest) := by
  obtain ⟨seg, hvalid, rfl, htokens⟩ := h
  have hproper : Token.Proper ⟨.symbol, w⟩ := .symbol hne fun c hc => plain_iff.1 (hw c hc)
  refine ⟨.before [] ⟨.symbol, w⟩ seg,
    ⟨.nil, hproper, fun _ => hvalid.not_startsWord hrest, hvalid⟩, rfl, ?_⟩
  rw [Segments.tokens, htokens, tokens_gap_word hne hw hrest]

theorem scanned (cs : List Char) : Scanned cs := by
  -- comments and words are taken whole, so the induction is on the length of what is left
  induction hn : cs.length using Nat.strongRecOn generalizing cs with
  | ind n ih =>
    rcases cs with _ | ⟨c, cs⟩
    · exact ⟨.last [], .nil, rfl, rfl⟩
    · rw [List.length_cons] at hn
      by_cases hblank : isBlank c = true
      · exact (ih cs.length (by omega) cs rfl).blank hblank
      by_cases hcomment : c = ';'
      · obtain ⟨line, rest, rfl, hline, hrest⟩ := exists_run (· ≠ '\n') cs
        rw [List.length_append] at hn
        rw [hcomment]
        exact (ih rest.length (by omega) rest rfl).comment (fun h => hline _ h rfl)
          fun d hd => Decidable.not_not.1 (hrest d hd)
      cases hmark : mark? c with
      | some t => exact (ih cs.length (by omega) cs rfl).mark hmark
      | none =>
        obtain ⟨ds, rest, rfl, hds, hrest⟩ := exists_run Plain cs
        rw [List.length_append] at hn
        have hplain : Plain c := ⟨by simpa using hblank, hcomment, hmark⟩
        have hword : ∀ d ∈ (String.ofList (c :: ds)).toList, Plain d := by
          rw [String.toList_ofList]
          exact List.forall_mem_cons.2 ⟨hplain, hds⟩
        have hscanned := (ih rest.length (by omega) rest rfl).word (by simp) hword hrest
        rwa [String.toList_ofList] at hscanned

theorem Segments.Valid.proper {seg : Segments} (h : seg.Valid) : ∀ t ∈ seg.tokens, t.Proper := by
  induction seg with
  | last gap => simp [tokens]
  | before gap t rest ih => exact List.forall_mem_cons.2 ⟨h.2.1, ih h.2.2.2⟩

theorem lex_proper {source : String} {t : Token} (ht : t ∈ lex source) : t.Proper := by
  obtain ⟨seg, hvalid, -, htokens⟩ := scanned source.toList
  rw [lex_eq_tokens, ← htokens] at ht
  exact hvalid.proper t ht

/-- Lexical exactness. No text is refused: lexing comes to the end of it without a fault. Every text
can be taken apart into gaps and proper tokens, and in one way only. The tokens of the text are
those. -/
theorem text_segments_uniquely (source : String) :
    (lexing source).fault = none ∧
    ∃ seg : Segments, seg.Valid ∧ seg.text = source.toList ∧ seg.tokens = lex source ∧
      ∀ other : Segments, other.Valid → other.text = source.toList → other = seg := by
  obtain ⟨seg, hvalid, htext, htokens⟩ := scanned source.toList
  refine ⟨lexing_fault source, seg, hvalid, htext, htokens.trans (lex_eq_tokens source).symm, ?_⟩
  intro other hother heq
  exact hother.unique hvalid (heq.trans htext.symm)

end Lisplet
