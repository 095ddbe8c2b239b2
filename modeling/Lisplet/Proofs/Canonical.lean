import Lisplet.Proofs.RoundTrip
import Lisplet.Proofs.Segments

/-! What the reader makes is canonical. It consists of numbers, of lists, and of symbols that are
words and do not look like numbers, and it is nested no deeper than the bound that it was read
under. So it can be displayed under that bound, and its text reads as one value of the same text:
whatever a text was like, printing what was read from it gives a text that printing what is read
from that does not change. That holds of values that do not equal themselves as well, so values are
compared by their texts here. -/

namespace Lisplet

open Reader Scanner Text

/-- Data in canonical form: any numbers, symbols that are words and do not look like numbers, and
lists of such data. -/
inductive Value.Canonical : Value → Prop where
  | number (x : Float) : Canonical (.number x)
  | symbol {n : String} (hne : n ≠ "")
      (hplain : ∀ c ∈ n.toList, isBlank c = false ∧ c ∉ delimiters)
      (hatom : (atom n).isSymbol = true) : Canonical (.symbol n)
  | list {vs : List Value} (h : ∀ v ∈ vs, Canonical v) : Canonical (.list vs)

theorem Value.Canonical.isSource {v : Value} (h : v.Canonical) : v.IsSource := by
  induction h with
  | number x => exact .number x
  | symbol _ _ _ => exact .symbol _
  | list _ ih => exact .list ih

theorem atom_cases (word : String) : atom word = .symbol word ∨ ∃ x, atom word = .number x := by
  unfold atom
  split
  · exact .inl rfl
  · split
    · exact .inr ⟨_, rfl⟩
    · exact .inl rfl

theorem Token.Proper.canonical_atom {t : Token} (ht : t.Proper) (hkind : t.kind = .symbol) :
    (atom t.text).Canonical := by
  cases ht with
  | @symbol w hne hw =>
    rcases atom_cases w with h | ⟨x, h⟩
    · have hcanonical : (Value.symbol w).Canonical := .symbol hne hw (by rw [h]; rfl)
      rwa [← h] at hcanonical
    · rw [h]
      exact .number x
  | openParen | closeParen | quote => simp at hkind

theorem Value.Canonical.quotation {v : Value} (h : v.Canonical) : v.quotation.Canonical := by
  have hplain : ("quote".toList.all fun c => !isBlank c && !delimiters.contains c) = true := by
    decide
  have hquote : (Value.symbol "quote").Canonical :=
    .symbol (by decide) (fun c hc => by simpa using List.all_eq_true.1 hplain c hc)
      (by decide +kernel)
  refine .list fun u hu => ?_
  rcases List.mem_pair.1 hu with rfl | rfl
  · exact hquote
  · exact h

mutual

/-- Proper tokens stand for canonical data. -/
theorem Reader.Derives.canonical {ts : List Token} {e : Value} (h : Derives ts e)
    (hts : ∀ t ∈ ts, t.Proper) : e.Canonical := by
  match h with
  | .symbol ht => exact (hts _ (by simp)).canonical_atom ht
  | .quote _ h => exact (h.canonical fun t ht => hts t (by simp [ht])).quotation
  | .list _ _ h => exact .list (h.canonical fun t ht => hts t (by simp [ht]))

theorem Reader.Forms.canonical {ts : List Token} {es : List Value} (h : Forms ts es)
    (hts : ∀ t ∈ ts, t.Proper) : ∀ e ∈ es, e.Canonical := by
  match h with
  | .nil => simp
  | .cons hd hs =>
    exact List.forall_mem_cons.2 ⟨hd.canonical fun t ht => hts t (by simp [ht]),
      hs.canonical fun t ht => hts t (by simp [ht])⟩

end

theorem Value.depths_le_iff {vs : List Value} {n : Nat} :
    depths vs ≤ n ↔ ∀ v ∈ vs, v.depth ≤ n := by
  induction vs with
  | nil => simp [depths]
  | cons v vs ih => rw [depths, Nat.max_le, ih, List.forall_mem_cons]

namespace Reader

variable {bound : Nat}

/-- Open forms are nested within the bound, with what they hold so far. -/
def Fits (bound : Nat) : List Pending → Prop
  | [] => True
  | .quoted :: ps => Fits bound ps
  | .items vs :: ps =>
    ps.length < bound ∧ (∀ v ∈ vs, ps.length + 1 + v.depth ≤ bound) ∧ Fits bound ps

def Progress.Fits (bound : Nat) : Progress → Prop
  | .done v => v.depth ≤ bound
  | .more ps => Reader.Fits bound ps

theorem fits_nil (bound : Nat) : Fits bound [] := trivial

theorem complete_fits {ps : List Pending} {v : Value} (hps : Fits bound ps)
    (hv : ps.length + v.depth ≤ bound) : (complete v ps).Fits bound := by
  induction ps generalizing v with
  | nil => simpa [complete, Progress.Fits] using hv
  | cons p ps ih =>
    rw [List.length_cons] at hv
    cases p with
    | quoted => exact ih hps (by rw [depth_quotation]; omega)
    | items vs =>
      exact ⟨hps.1, List.forall_mem_cons.2 ⟨hv, hps.2.1⟩, hps.2.2⟩

/-- One token keeps what is open within the bound, and finishes no value that is not. -/
theorem accept_fits {ps : List Pending} {t : Token} {r : Progress} (hps : Fits bound ps)
    (h : accept bound ps t = .ok r) : r.Fits bound := by
  unfold accept at h
  split at h
  · rename_i vs outer hkind
    obtain ⟨hlen, hvs, houter⟩ := hps
    have hdepth : Value.depths vs.reverse ≤ bound - (outer.length + 1) := by
      rw [Value.depths_le_iff]
      intro v hv
      have := hvs v (List.mem_reverse.1 hv)
      omega
    rw [Except.ok.injEq] at h
    rw [← h]
    exact complete_fits houter (by rw [Value.depth]; omega)
  · split at h
    · simp at h
    · split at h
      · rw [Except.ok.injEq] at h
        rw [← h]
        exact complete_fits hps (by rw [depth_atom]; omega)
      · rw [Except.ok.injEq] at h
        rw [← h]
        exact hps
      · rw [Except.ok.injEq] at h
        rw [← h]
        exact ⟨by omega, List.forall_mem_nil _, hps⟩
      · simp at h
      · simp at h

/-- Values are nested no deeper than the bound that they are read under. -/
theorem readAllFrom_depth_le {ps : List Pending} {ts : List Token} {read es : List Value}
    (hps : Fits bound ps) (hread : ∀ v ∈ read, v.depth ≤ bound)
    (h : (readAllFrom bound read ps ts).1 = .ok es) : ∀ v ∈ es, v.depth ≤ bound := by
  induction ts generalizing ps read with
  | nil =>
    cases ps with
    | nil =>
      rw [readAllFrom, Except.ok.injEq] at h
      intro v hv
      exact hread v (by simpa [← h] using hv)
    | cons p ps => simp [readAllFrom] at h
  | cons t ts ih =>
    rw [readAllFrom] at h
    split at h
    · rename_i v hv
      exact ih (fits_nil bound) (List.forall_mem_cons.2 ⟨accept_fits hps hv, hread⟩) h
    · rename_i ps' hps'
      exact ih (accept_fits hps hps') hread h
    · simp at h

end Reader

/-- Values of one text and one depth. -/
structure Value.SameText (w v : Value) : Prop where
  depth : w.depth = v.depth
  text : w.text = v.text

theorem Value.SameText.list {ws vs : List Value} (h : List.Forall₂ SameText ws vs) :
    SameText (.list ws) (.list vs) := by
  have htexts : texts ws = texts vs := by
    induction h with
    | nil => rfl
    | cons hv _ ih => rw [texts, texts, hv.text, ih]
  refine ⟨?_, ?_⟩
  · rw [Value.depth, Value.depth, depths_congr (h.imp fun _ _ hv => hv.depth)]
  · rw [Value.text, Value.text, htexts]

/-- The text of what is not a number reads as something that is not one either. -/
theorem readsAs_nan {x : Float} (h : x.isNaN = true) :
    ReadsAs Value.SameText (Number.text x).toList (.number x) := by
  obtain ⟨y, hread, htext⟩ := Number.read?_nan
  have hatom : atom "nan" = .number y := by
    rw [atom, hread]
    rfl
  have hplain : ("nan".toList.all fun c => !isBlank c && !delimiters.contains c) = true := by
    decide
  have hsame : Value.SameText (atom "nan") (.number x) := by
    rw [hatom]
    exact ⟨rfl, by rw [Value.text, Value.text, htext, Number.text_of_isNaN h]⟩
  rw [Number.text_of_isNaN h]
  exact .word (by decide)
    (fun c hc => plain_iff.2 (by simpa using List.all_eq_true.1 hplain c hc)) hsame

/-- The text of canonical data reads as a value of the same text. -/
theorem Value.Canonical.readsAs {v : Value} (h : v.Canonical) :
    ReadsAs Value.SameText v.text.toList v := by
  induction h with
  | number x =>
    cases hnan : x.isNaN with
    | true => exact readsAs_nan hnan
    | false => exact .number hnan fun y _ htext => ⟨rfl, htext⟩
  | symbol hne hplain hatom => exact .symbol hne hplain hatom ⟨rfl, rfl⟩
  | list _ ih => exact readsAs_list ih fun ws hws => .list hws

/-- What the reader makes is canonical. Its display text, which it has under the bound that it was
read under, reads as one value, and that value has the same display text. -/
theorem reading_is_canonical {bound : Nat} {source : String} {vs : List Value}
    (h : parseAll bound source = .ok vs) {v : Value} (hv : v ∈ vs) :
    v.Canonical ∧ ∃ text w, v.display bound = .ok text ∧ parseAll bound text = .ok [w] ∧
      w.display bound = .ok text := by
  have hforms : Forms (lex source) vs := forms_of_parseAll h
  have hcanonical : v.Canonical := hforms.canonical (fun t ht => lex_proper ht) v hv
  have hdepth : v.depth ≤ bound := by
    rw [parseAll_eq] at h
    exact readAllFrom_depth_le (fits_nil bound) (List.forall_mem_nil _) h v hv
  obtain ⟨ts, w, hts, hw, hlex⟩ := hcanonical.readsAs
  refine ⟨hcanonical, v.text, w, hcanonical.isSource.display_eq hdepth, ?_, ?_⟩
  · have htokens : lex v.text = ts ++ [] := by
      have hall := hlex [] trivial
      rwa [List.append_nil, ← lex_eq_tokens] at hall
    have hwdepth : Value.depths [w] ≤ bound := by
      rw [Value.depths_le_iff]
      simpa [hw.depth] using hdepth
    rw [parseAll_eq, htokens, (Forms.single hts).readAllFrom_eq hwdepth]
    simp [readAllFrom]
  · rw [← hw.text]
    exact hts.isSource.display_eq (hw.depth ▸ hdepth)

/-- What `'(1e0 -0 nan)` reads as. -/
def Value.sampleQuotation : Value :=
  quotation (.list [.number (Number.nearest false 1 1), .number (Number.ofMagnitude true 0),
    .number (Number.Numeral.value (.nan false))])

/-- A quotation with a comment, of numbers in spellings of their own, one of which is not a number.
-/
theorem sampleQuotation_is_canonical :
    parseAll 9 "'(1e0 -0 nan) ; spelt out" = .ok [.sampleQuotation] ∧
      Value.sampleQuotation.text = "(quote (1 0 nan))" ∧ Value.sampleQuotation.Canonical ∧
      ∃ text w, Value.sampleQuotation.display 9 = .ok text ∧ parseAll 9 text = .ok [w] ∧
        w.display 9 = .ok text := by
  have hparse : parseAll 9 "'(1e0 -0 nan) ; spelt out" = .ok [.sampleQuotation] := by
    rw [parseAll_eq_scan]
    rfl
  have htext : Value.sampleQuotation.text = "(quote (1 0 nan))" := by decide +kernel
  exact ⟨hparse, htext, reading_is_canonical hparse (List.mem_singleton.2 rfl)⟩

end Lisplet
