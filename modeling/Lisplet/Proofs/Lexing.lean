import Lisplet.Proofs.Scanner

/-! Lexing never fails. The pattern matches wherever something other than blanks is left, and never
without taking a character, so the loop ends at the end of the text and at no fault. Each match
yields what the scanner finds in the same stretch of text: the loop and the scanner have the same
tokens. -/

namespace Lisplet

namespace Scanner

variable {cs : List Char} {m : Match}

theorem stopsAt_dropWhile (cs : List Char) : StopsAt Plain (cs.dropWhile isPlain) := by
  intro c hc hplain
  have hstop := List.head?_dropWhile_not isPlain cs
  rw [hc] at hstop
  simp [isPlain_iff.2 hplain] at hstop

/-- A lexeme in front of a text has the tokens that the scanner finds there. -/
theorem tokens_of_lexemeAt? (h : lexemeAt? cs = some m) :
    tokens .gap cs = m.lexeme.tokens ++ tokens .gap m.rest := by
  rcases lexemeAt?_cases h with
    ⟨tail, rfl, rfl⟩ | ⟨c, t, tail, rfl, ht, rfl⟩ | ⟨c, word, hword, rfl⟩
  · rw [tokens_semicolon, tokens_comment]
    rfl
  · rw [tokens_mark ht]
    rfl
  · have hplain : ∀ d ∈ (String.ofList (c :: word)).toList, Plain d := by
      rw [String.toList_ofList, ← hword]
      exact fun d hd => isPlain_iff.1 (List.all_eq_true.1 List.all_takeWhile d hd)
    have htokens := tokens_gap_word (by simp) hplain (stopsAt_dropWhile cs)
    rw [String.toList_ofList, ← hword, List.takeWhile_append_dropWhile] at htokens
    rw [htokens, hword]
    rfl

theorem tokens_of_matchAt? (h : matchAt? cs = some m) :
    tokens .gap cs = m.lexeme.tokens ++ tokens .gap m.rest := by
  obtain ⟨gap, tail, m', rfl, hgap, hm', rfl⟩ := matchAt?_cases h
  rw [tokens_gap_append hgap, tokens_of_lexemeAt? hm']

theorem length_pos_of_lexemeAt? (h : lexemeAt? cs = some m) : 0 < m.lexeme.length := by
  rcases lexemeAt?_cases h with
    ⟨tail, -, rfl⟩ | ⟨c, t, tail, -, ht, rfl⟩ | ⟨c, word, -, rfl⟩
  · exact Nat.succ_pos _
  · simp [Lexeme.length, length_of_mark? ht]
  · rw [Lexeme.length, String.length_ofList]
    exact Nat.succ_pos _

/-- A match takes a character at least. -/
theorem width_pos_of_matchAt? (h : matchAt? cs = some m) : 0 < m.width := by
  obtain ⟨gap, tail, m', -, -, hm', rfl⟩ := matchAt?_cases h
  have hpos := length_pos_of_lexemeAt? hm'
  exact Nat.add_pos_right _ hpos

/-- Whatever is not blank begins a comment, is a mark or stands in a word. -/
theorem isBlank_of_lexemeAt?_eq_none {c : Char} (h : lexemeAt? (c :: cs) = none) :
    Text.isBlank c = true := by
  simp only [lexemeAt?, Option.orElse_eq_orElse, Option.orElse_eq_or, Option.or_eq_none_iff] at h
  obtain ⟨hcomment, hmark, hword⟩ := h
  have hnot : isPlain c = false := by
    cases hc : isPlain c with
    | false => rfl
    | true => simp [wordAt?, hc] at hword
  refine Decidable.byContradiction fun hblank => ?_
  have hplain : Plain c := by
    refine ⟨by simpa using hblank, fun hc => ?_, Option.map_eq_none_iff.1 hmark⟩
    rw [hc] at hcomment
    cases hcomment
  rw [isPlain_iff.2 hplain] at hnot
  cases hnot

/-- The pattern fails in front of blanks only. -/
theorem all_isBlank_of_matchAt?_eq_none (h : matchAt? cs = none) : cs.all Text.isBlank = true := by
  induction cs with
  | nil => rfl
  | cons c cs ih =>
    simp only [matchAt?, Option.orElse_eq_orElse, Option.orElse_eq_or, Option.or_eq_none_iff] at h
    have hblank := isBlank_of_lexemeAt?_eq_none h.2
    rw [if_pos hblank, Option.map_eq_none_iff] at h
    rw [List.all_cons, hblank, ih h.1]
    rfl

/-- The loop finds the tokens that the scanner finds, and no fault. -/
theorem lexFrom_eq (position : Nat) (cs : List Char) :
    lexFrom position cs = ⟨tokens .gap cs, none⟩ := by
  fun_induction lexFrom position cs with
  | case1 => rfl
  | case2 position c cs m hm later ih =>
    rw [tokens_of_matchAt? (Option.filter_eq_some_iff.1 hm).1]
    simp only [later, ih]
  | case3 position c cs _ hblank =>
    rw [tokens_gap_of_all_blank (List.all_eq_true.1 hblank)]
  | case4 position c cs hnone hblank =>
    refine absurd ?_ hblank
    cases hm : matchAt? (c :: cs) with
    | none => exact all_isBlank_of_matchAt?_eq_none hm
    | some m =>
      have hpos := width_pos_of_matchAt? hm
      rw [hm, Option.filter_eq_none_iff] at hnone
      exact absurd (decide_eq_true hpos) (hnone m rfl)

end Scanner

open Scanner

/-- Every text is lexed to its end, and into the tokens that the scanner finds. -/
theorem lexing_eq_scan (source : String) : lexing source = ⟨scan source, none⟩ := by
  rw [lexing, lexFrom_eq, scan_eq_tokens]

theorem lexing_fault (source : String) : (lexing source).fault = none := by
  rw [lexing_eq_scan]

theorem lex_eq_scan (source : String) : lex source = scan source := by
  rw [lex, lexing_eq_scan]

theorem lex_eq_tokens (source : String) : lex source = tokens .gap source.toList := by
  rw [lex_eq_scan, scan_eq_tokens]

/-- The tokens of two texts on separate lines are the tokens of the one and then of the other. -/
theorem lex_append_newline (a b : String) : lex (a ++ "\n" ++ b) = lex a ++ lex b := by
  simp [lex_eq_tokens, tokens_append_newline]

theorem lex_kind {source : String} {t : Token} (ht : t ∈ lex source) (name : String) :
    t.kind ≠ .other name := by
  rw [lex_eq_tokens] at ht
  exact tokens_kind ht name

end Lisplet
