import Lisplet.Token

/-! The scanner: the tokens of a text by one pass over its characters. Between tokens it is in a gap
or in a comment, and inside a word it keeps the text of the word so far. `tokens` is the same by
recursion on the text, from any mode on. What the scanner has found before never matters for what it
finds later, so facts about tokens are proved by induction on this function. A word that does not go
on is one token, and texts on separate lines have separate tokens. -/

namespace Lisplet

/-- Where the scanner stands. -/
inductive Scanner.Mode where
  | gap
  | comment
  | word (text : String)
deriving Repr, DecidableEq, Inhabited

structure Scanner where
  found : Array Token := #[]
  mode : Scanner.Mode := .gap
deriving Repr, DecidableEq, Inhabited

namespace Scanner

/-- The text of the word that the scanner is in, empty outside words. -/
def Mode.text : Mode → String
  | .word w => w
  | _ => ""

/-- All tokens so far, the word at hand included. -/
def flush (s : Scanner) : Array Token :=
  match s.mode with
  | .word w => s.found.push ⟨.symbol, w⟩
  | _ => s.found

/-- Takes in one character. -/
def push (s : Scanner) (c : Char) : Scanner :=
  if s.mode = .comment then
    if c = '\n' then { s with mode := .gap } else s
  else if Text.isBlank c then ⟨s.flush, .gap⟩
  else if c = ';' then ⟨s.flush, .comment⟩
  else
    match mark? c with
    | some t => ⟨s.flush.push t, .gap⟩
    | none => { s with mode := .word (s.mode.text.push c) }

/-- The tokens of a text, by a pass over its characters. -/
def scan (source : String) : List Token :=
  (source.toList.foldl push {}).flush.toList

/-- The word at hand as a token, if there is one. -/
def Mode.pending : Mode → List Token
  | .word w => [⟨.symbol, w⟩]
  | _ => []

/-- The tokens of a text that is met in a mode. -/
def tokens : Mode → List Char → List Token
  | m, [] => m.pending
  | m, c :: cs =>
    if m = .comment then tokens (if c = '\n' then .gap else .comment) cs
    else if Text.isBlank c then m.pending ++ tokens .gap cs
    else if c = ';' then m.pending ++ tokens .comment cs
    else
      match mark? c with
      | some t => m.pending ++ t :: tokens .gap cs
      | none => tokens (.word (m.text.push c)) cs

theorem flush_toList (s : Scanner) : s.flush.toList = s.found.toList ++ s.mode.pending := by
  obtain ⟨found, mode⟩ := s
  cases mode <;> simp [flush, Mode.pending]

/-- One character: what is found, together with what is still to come, does not change. -/
theorem push_tokens (s : Scanner) (c : Char) (cs : List Char) :
    (s.push c).found.toList ++ tokens (s.push c).mode cs =
      s.found.toList ++ tokens s.mode (c :: cs) := by
  rw [push, tokens]
  by_cases hm : s.mode = .comment
  · rw [if_pos hm, if_pos hm]
    split
    · rfl
    · rw [hm]
  · rw [if_neg hm, if_neg hm]
    split
    · rw [flush_toList, List.append_assoc]
    · split
      · rw [flush_toList, List.append_assoc]
      · cases mark? c with
        | none => rfl
        | some t =>
          rw [Array.toList_push, flush_toList, List.append_assoc, List.append_assoc]
          rfl

theorem foldl_push_tokens (s : Scanner) (cs : List Char) :
    (cs.foldl push s).flush.toList = s.found.toList ++ tokens s.mode cs := by
  induction cs generalizing s with
  | nil => rw [List.foldl_nil, flush_toList, tokens]
  | cons c cs ih => rw [List.foldl_cons, ih, push_tokens]

theorem scan_eq_tokens (source : String) : scan source = tokens .gap source.toList := by
  rw [scan, foldl_push_tokens]
  rfl

theorem mark?_kind {c : Char} {t : Token} (h : mark? c = some t) (name : String) :
    t.kind ≠ .other name := by
  unfold mark? at h
  split at h <;> cases h <;> nofun

theorem pending_kind {m : Mode} {t : Token} (ht : t ∈ m.pending) (name : String) :
    t.kind ≠ .other name := by
  cases m with
  | word w => cases List.mem_singleton.1 ht; nofun
  | gap => cases ht
  | comment => cases ht

/-- The scanner makes tokens of the four kinds only. -/
theorem tokens_kind {m : Mode} {cs : List Char} {t : Token} (ht : t ∈ tokens m cs)
    (name : String) : t.kind ≠ .other name := by
  induction cs generalizing m with
  | nil => exact pending_kind ht name
  | cons c cs ih =>
    rw [tokens] at ht
    split at ht
    · exact ih ht
    · split at ht
      · exact (List.mem_append.1 ht).elim (pending_kind · name) ih
      · split at ht
        · exact (List.mem_append.1 ht).elim (pending_kind · name) ih
        · split at ht
          · rename_i u hu
            rcases List.mem_append.1 ht with ht | ht
            · exact pending_kind ht name
            · rcases List.mem_cons.1 ht with rfl | ht
              · exact mark?_kind hu name
              · exact ih ht
          · exact ih ht

/-- Characters that stay inside a word. -/
def Plain (c : Char) : Prop :=
  Text.isBlank c = false ∧ c ≠ ';' ∧ mark? c = none

theorem plain_iff {c : Char} : Plain c ↔ Text.isBlank c = false ∧ c ∉ delimiters := by
  constructor
  · intro ⟨hblank, hcomment, hmark⟩
    refine ⟨hblank, fun hc => ?_⟩
    simp only [delimiters, List.mem_cons, List.not_mem_nil, or_false] at hc
    rcases hc with rfl | rfl | rfl | rfl
    · exact absurd hmark (by decide)
    · exact absurd hmark (by decide)
    · exact hcomment rfl
    · exact absurd hmark (by decide)
  · intro ⟨hblank, hc⟩
    refine ⟨hblank, fun h => hc (h ▸ by decide), ?_⟩
    unfold mark?
    split
    · exact absurd (by decide) hc
    · exact absurd (by decide) hc
    · exact absurd (by decide) hc
    · rfl

theorem isPlain_iff {c : Char} : isPlain c = true ↔ Plain c := by
  simp [isPlain, plain_iff]

/-- No character of the class `p` stands in front. -/
def StopsAt (p : Char → Prop) (cs : List Char) : Prop :=
  ∀ c, cs.head? = some c → ¬ p c

/-- Texts that end a word: a blank or a closing parenthesis in front, or nothing. -/
def Breaks : List Char → Prop
  | [] => True
  | c :: _ => Text.isBlank c = true ∨ c = ')'

theorem breaks_blank {c : Char} (h : Text.isBlank c = true) (cs : List Char) : Breaks (c :: cs) :=
  Or.inl h

theorem breaks_close (cs : List Char) : Breaks (')' :: cs) :=
  Or.inr rfl

theorem Breaks.stopsAt {cs : List Char} (h : Breaks cs) : StopsAt Plain cs := by
  rcases cs with _ | ⟨d, cs⟩
  · nofun
  · intro c hc hplain
    simp only [List.head?_cons, Option.some.injEq] at hc
    subst hc
    rcases h with h | rfl
    · exact absurd h (by simp [hplain.1])
    · exact absurd hplain.2.2 (by decide)

theorem tokens_blank {c : Char} (h : Text.isBlank c = true) (cs : List Char) :
    tokens .gap (c :: cs) = tokens .gap cs := by
  rw [tokens, if_neg nofun, if_pos h]
  rfl

theorem tokens_gap_append {gap : List Char} (h : ∀ c ∈ gap, Text.isBlank c = true)
    (cs : List Char) : tokens .gap (gap ++ cs) = tokens .gap cs := by
  induction gap with
  | nil => rfl
  | cons c gap ih =>
    rw [List.cons_append, tokens_blank (h c (by simp))]
    exact ih fun d hd => h d (by simp [hd])

theorem tokens_gap_of_all_blank {cs : List Char} (h : ∀ c ∈ cs, Text.isBlank c = true) :
    tokens .gap cs = [] := by
  rw [← List.append_nil cs, tokens_gap_append h]
  rfl

theorem tokens_semicolon (cs : List Char) : tokens .gap (';' :: cs) = tokens .comment cs := by
  rw [tokens, if_neg nofun, if_neg (by decide), if_pos rfl]
  rfl

/-- A comment is over at the end of its line. -/
theorem tokens_comment (cs : List Char) :
    tokens .comment cs = tokens .gap (cs.dropWhile (· ≠ '\n')) := by
  induction cs with
  | nil => rfl
  | cons c cs ih =>
    rw [tokens, if_pos rfl]
    by_cases hc : c = '\n'
    · rw [if_pos hc, List.dropWhile_cons_of_neg (by simp [hc]), tokens_blank (by rw [hc]; decide)]
    · rw [if_neg hc, ih, List.dropWhile_cons_of_pos (by simp [hc])]

theorem mark?_not_gap {c : Char} {t : Token} (h : mark? c = some t) :
    Text.isBlank c = false ∧ c ≠ ';' := by
  unfold mark? at h
  split at h
  · decide
  · decide
  · decide
  · cases h

theorem tokens_mark {c : Char} {t : Token} (h : mark? c = some t) (cs : List Char) :
    tokens .gap (c :: cs) = t :: tokens .gap cs := by
  obtain ⟨hblank, hcomment⟩ := mark?_not_gap h
  rw [tokens, if_neg nofun, if_neg (by rw [hblank]; nofun), if_neg hcomment, h]
  rfl

theorem tokens_open (cs : List Char) :
    tokens .gap ('(' :: cs) = ⟨.openParen, "("⟩ :: tokens .gap cs :=
  tokens_mark rfl cs

theorem tokens_close (cs : List Char) :
    tokens .gap (')' :: cs) = ⟨.closeParen, ")"⟩ :: tokens .gap cs :=
  tokens_mark rfl cs

theorem tokens_quote (cs : List Char) :
    tokens .gap ('\'' :: cs) = ⟨.quote, "'"⟩ :: tokens .gap cs :=
  tokens_mark rfl cs

/-- Where no word goes on, the word at hand ends. -/
theorem tokens_stop (m : Mode) (hm : m ≠ .comment) {cs : List Char} (h : StopsAt Plain cs) :
    tokens m cs = m.pending ++ tokens .gap cs := by
  rcases cs with _ | ⟨c, cs⟩
  · simp [tokens, Mode.pending]
  · have hgap : Mode.gap ≠ .comment := nofun
    rw [tokens, tokens, if_neg hm, if_neg hgap]
    by_cases hblank : Text.isBlank c = true
    · rw [if_pos hblank, if_pos hblank]
      rfl
    · by_cases hcomment : c = ';'
      · rw [if_neg hblank, if_neg hblank, if_pos hcomment, if_pos hcomment]
        rfl
      · rw [if_neg hblank, if_neg hblank, if_neg hcomment, if_neg hcomment]
        cases hmark : mark? c with
        | some t => rfl
        | none => exact absurd ⟨by simpa using hblank, hcomment, hmark⟩ (h c rfl)

theorem tokens_plain (m : Mode) (hm : m ≠ .comment) {c : Char} (h : Plain c) (cs : List Char) :
    tokens m (c :: cs) = tokens (.word (m.text.push c)) cs := by
  rw [tokens, if_neg hm, if_neg (by rw [h.1]; nofun), if_neg h.2.1, h.2.2]

theorem tokens_word (w : String) {cs rest : List Char} (h : ∀ c ∈ cs, Plain c)
    (hrest : StopsAt Plain rest) :
    tokens (.word w) (cs ++ rest) = ⟨.symbol, w ++ String.ofList cs⟩ :: tokens .gap rest := by
  induction cs generalizing w with
  | nil =>
    rw [String.ofList_nil, String.append_empty]
    exact tokens_stop (.word w) nofun hrest
  | cons c cs ih =>
    rw [List.cons_append, tokens_plain (.word w) nofun (h c List.mem_cons_self),
      ih _ fun d hd => h d (List.mem_cons_of_mem c hd)]
    congr 2
    simp [Mode.text, ← String.toList_inj]

/-- A word is one token. -/
theorem tokens_gap_word {w : String} (hne : w ≠ "") (h : ∀ c ∈ w.toList, Plain c)
    {rest : List Char} (hrest : StopsAt Plain rest) :
    tokens .gap (w.toList ++ rest) = ⟨.symbol, w⟩ :: tokens .gap rest := by
  obtain ⟨c, cs, hw⟩ := List.exists_cons_of_ne_nil (mt String.toList_eq_nil_iff.1 hne)
  rw [hw] at h ⊢
  rw [List.cons_append, tokens_plain .gap nofun (h c List.mem_cons_self),
    tokens_word _ (fun d hd => h d (List.mem_cons_of_mem c hd)) hrest]
  congr 2
  simp [Mode.text, ← String.toList_inj, hw]

/-- The end of a line separates: it ends a comment and a word, and nothing reaches across it. -/
theorem tokens_append_newline (m : Mode) (cs ds : List Char) :
    tokens m (cs ++ '\n' :: ds) = tokens m cs ++ tokens .gap ds := by
  induction cs generalizing m with
  | nil =>
    have hblank : Text.isBlank '\n' = true := by decide
    by_cases hm : m = .comment
    · simp [tokens, hm, Mode.pending]
    · simp [tokens, hm, hblank]
  | cons c cs ih =>
    simp only [List.cons_append, tokens, ih]
    split
    · rfl
    · split
      · simp
      · split
        · simp
        · cases mark? c <;> simp

end Scanner

end Lisplet
