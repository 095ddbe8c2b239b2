import Lisplet.Text.Blank

/-! Tokens of source text. One pattern is matched against the text, each time from where the last
match ended: blanks, and then a comment, a mark or a word. Comments are passed over, and all else is
a token. Where nothing matches, the text has to be over but for blanks. -/

namespace Lisplet

/-- The kinds of token. `other` is any kind that source text never leads to, for tokens that come
from elsewhere. -/
inductive Token.Kind where
  | openParen
  | closeParen
  | quote
  | symbol
  | other (name : String)
deriving Repr, DecidableEq, Inhabited

structure Token where
  kind : Token.Kind
  text : String
deriving Repr, DecidableEq, Inhabited

/-- Why reading fails. Positions are counted in characters, from zero. -/
inductive ReadFault where
  | unexpectedChar (position : Nat) (c : Char)
  | unexpectedEnd
  | unexpectedClose
  | unknownToken (kind text : String)
  | tooDeep
deriving Repr, DecidableEq, Inhabited

/-- What becomes of a text: its tokens, up to the end of the text or to a fault. -/
structure Lexing where
  tokens : List Token := []
  fault : Option ReadFault := none
deriving Repr, DecidableEq, Inhabited

namespace Scanner

/-- The token that a single character makes by itself. -/
def mark? : Char → Option Token
  | '(' => some ⟨.openParen, "("⟩
  | ')' => some ⟨.closeParen, ")"⟩
  | '\'' => some ⟨.quote, "'"⟩
  | _ => none

/-- The characters other than blanks that end a word. -/
def delimiters : List Char :=
  ['(', ')', ';', '\'']

/-- Whether a character stands in words. -/
def isPlain (c : Char) : Bool :=
  !Text.isBlank c && !delimiters.contains c

/-- What the pattern finds behind blanks. -/
inductive Lexeme where
  | comment (text : List Char)
  | token (t : Token)
deriving Repr, DecidableEq, Inhabited

namespace Lexeme

def length : Lexeme → Nat
  | comment text => text.length
  | token t => t.text.length

def tokens : Lexeme → List Token
  | comment _ => []
  | token t => [t]

end Lexeme

/-- A match at the front of a text: how many blanks, the lexeme behind them, and the text behind
that. -/
structure Match where
  blanks : Nat := 0
  lexeme : Lexeme
  rest : List Char
deriving Repr, DecidableEq, Inhabited

def Match.width (m : Match) : Nat :=
  m.blanks + m.lexeme.length

/-- A comment runs from a semicolon to the end of its line. -/
def commentAt? : List Char → Option Match
  | ';' :: cs =>
    some { lexeme := .comment (';' :: cs.takeWhile (· ≠ '\n')), rest := cs.dropWhile (· ≠ '\n') }
  | _ => none

def markAt? : List Char → Option Match
  | [] => none
  | c :: cs => (mark? c).map fun t => { lexeme := .token t, rest := cs }

/-- A word is one character at least, and all that stand in words after it. -/
def wordAt? (cs : List Char) : Option Match :=
  match cs.takeWhile isPlain with
  | [] => none
  | c :: word =>
    some { lexeme := .token ⟨.symbol, String.ofList (c :: word)⟩, rest := cs.dropWhile isPlain }

def lexemeAt? (cs : List Char) : Option Match :=
  commentAt? cs <|> markAt? cs <|> wordAt? cs

/-- The whole pattern. It takes as many blanks as it can, and fewer if no lexeme is behind them. -/
def matchAt? : List Char → Option Match
  | [] => lexemeAt? []
  | c :: cs =>
    (if Text.isBlank c then (matchAt? cs).map fun m => { m with blanks := m.blanks + 1 } else none)
      <|> lexemeAt? (c :: cs)

/-- What a lexeme in front of a text is. -/
theorem lexemeAt?_cases {cs : List Char} {m : Match} (h : lexemeAt? cs = some m) :
    (∃ tail, cs = ';' :: tail ∧
      m = ⟨0, .comment (';' :: tail.takeWhile (· ≠ '\n')), tail.dropWhile (· ≠ '\n')⟩) ∨
    (∃ c t tail, cs = c :: tail ∧ mark? c = some t ∧ m = ⟨0, .token t, tail⟩) ∨
    ∃ c word, cs.takeWhile isPlain = c :: word ∧
      m = ⟨0, .token ⟨.symbol, String.ofList (c :: word)⟩, cs.dropWhile isPlain⟩ := by
  simp only [lexemeAt?, Option.orElse_eq_orElse, Option.orElse_eq_or, Option.or_eq_some_iff] at h
  rcases h with h | ⟨-, h | ⟨-, h⟩⟩
  · unfold commentAt? at h
    split at h
    · rename_i tail
      exact .inl ⟨tail, rfl, (Option.some.inj h).symm⟩
    · cases h
  · unfold markAt? at h
    split at h
    · cases h
    · rename_i c tail
      obtain ⟨t, ht, hm⟩ := Option.map_eq_some_iff.1 h
      exact .inr (.inl ⟨c, t, tail, rfl, ht, hm.symm⟩)
  · unfold wordAt? at h
    split at h
    · cases h
    · rename_i c word hword
      exact .inr (.inr ⟨c, word, hword, (Option.some.inj h).symm⟩)

theorem length_of_mark? {c : Char} {t : Token} (h : mark? c = some t) : t.text.length = 1 := by
  unfold mark? at h
  split at h
  · cases h; rfl
  · cases h; rfl
  · cases h; rfl
  · cases h

theorem lexemeAt?_length {cs : List Char} {m : Match} (h : lexemeAt? cs = some m) :
    m.width + m.rest.length = cs.length := by
  have hsplit (p : Char → Bool) (cs : List Char) :
      (cs.takeWhile p).length + (cs.dropWhile p).length = cs.length := by
    rw [← List.length_append, List.takeWhile_append_dropWhile]
  rcases lexemeAt?_cases h with
    ⟨tail, rfl, rfl⟩ | ⟨c, t, tail, rfl, ht, rfl⟩ | ⟨c, word, hword, rfl⟩
  · have := hsplit (· ≠ '\n') tail
    simp only [Match.width, Lexeme.length, List.length_cons]
    omega
  · simp only [Match.width, Lexeme.length, length_of_mark? ht, List.length_cons]
    omega
  · have := hsplit isPlain cs
    rw [hword] at this
    rw [Match.width, Lexeme.length, String.length_ofList, Nat.zero_add, this]

/-- What a match in front of a text is: blanks, and a lexeme behind them. -/
theorem matchAt?_cases {cs : List Char} {m : Match} (h : matchAt? cs = some m) :
    ∃ gap tail m', cs = gap ++ tail ∧ (∀ c ∈ gap, Text.isBlank c = true) ∧
      lexemeAt? tail = some m' ∧ m = { m' with blanks := gap.length + m'.blanks } := by
  induction cs generalizing m with
  | nil => exact ⟨[], [], m, rfl, nofun, h, by simp⟩
  | cons c cs ih =>
    simp only [matchAt?, Option.orElse_eq_orElse, Option.orElse_eq_or, Option.or_eq_some_iff] at h
    rcases h with h | ⟨-, h⟩
    · split at h
      · rename_i hblank
        obtain ⟨m₁, hm₁, rfl⟩ := Option.map_eq_some_iff.1 h
        obtain ⟨gap, tail, m', rfl, hgap, hm', rfl⟩ := ih hm₁
        refine ⟨c :: gap, tail, m', rfl, List.forall_mem_cons.2 ⟨hblank, hgap⟩, hm', ?_⟩
        simp only [List.length_cons, Nat.add_right_comm]
      · cases h
    · exact ⟨[], c :: cs, m, rfl, nofun, h, by simp⟩

/-- A match and the text behind it are the whole text. -/
theorem matchAt?_length {cs : List Char} {m : Match} (h : matchAt? cs = some m) :
    m.width + m.rest.length = cs.length := by
  obtain ⟨gap, tail, m', rfl, -, hm', rfl⟩ := matchAt?_cases h
  have := lexemeAt?_length hm'
  simp only [Match.width, List.length_append] at this ⊢
  omega

theorem length_rest_lt {cs : List Char} {m : Match}
    (h : (matchAt? cs).filter (0 < ·.width) = some m) : m.rest.length < cs.length := by
  obtain ⟨hm, hwidth⟩ := Option.filter_eq_some_iff.1 h
  have := matchAt?_length hm
  simp only [decide_eq_true_eq] at hwidth
  omega

/-- Matches the text from a position on. A match of no characters counts as none. -/
def lexFrom (position : Nat) : List Char → Lexing
  | [] => {}
  | c :: cs =>
    match _h : (matchAt? (c :: cs)).filter (0 < ·.width) with
    | some m =>
      let later := lexFrom (position + m.width) m.rest
      { later with tokens := m.lexeme.tokens ++ later.tokens }
    | none =>
      if (c :: cs).all Text.isBlank then {}
      else { fault := some (.unexpectedChar position c) }
termination_by cs => cs.length
decreasing_by exact length_rest_lt _h

end Scanner

def lexing (source : String) : Lexing :=
  Scanner.lexFrom 0 source.toList

/-- The tokens of a source text, whatever ends them. -/
def lex (source : String) : List Token :=
  (lexing source).tokens

end Lisplet
