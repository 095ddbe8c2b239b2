import Lisplet.Proofs.Grammar
import Lisplet.Proofs.Number.Written
import Lisplet.Value.Written

/-! Printing, then reading. The display text of a readable value, in front of a break, is scanned as
tokens that derive an equal value, and so is a sequence of such texts with blanks between them.
Values are equal here as in evaluation: numbers by size, so a negative zero may lose its sign. -/

namespace Lisplet

open Reader Scanner Text

/-- The values whose display text is meant to read back: numbers, symbols that are words and do not
look like numbers, and lists of such values. -/
inductive Value.Readable : Value → Prop where
  | number {x : Float} (h : x.isNaN = false) : Readable (.number x)
  | symbol {n : String} (hne : n ≠ "")
      (hplain : ∀ c ∈ n.toList, isBlank c = false ∧ c ∉ delimiters)
      (hatom : (atom n).isSymbol = true) : Readable (.symbol n)
  | list {vs : List Value} (h : ∀ v ∈ vs, Readable v) : Readable (.list vs)

/-- Equal values of the same shape, whatever the bound that they are compared under. -/
structure Value.Alike (w v : Value) : Prop where
  depth : w.depth = v.depth
  same : ∀ d, v.depth ≤ d → Value.same? d w v = some true

/-- The text reads as one value that is related to `v`, before any break. -/
def ReadsAs (R : Value → Value → Prop) (cs : List Char) (v : Value) : Prop :=
  ∃ ts w, Derives ts w ∧ R w v ∧
    ∀ rest, Breaks rest → tokens .gap (cs ++ rest) = ts ++ tokens .gap rest

/-- The text reads as a sequence of values that are related to `vs`, before any break. -/
def ReadsAll (R : Value → Value → Prop) (cs : List Char) (vs : List Value) : Prop :=
  ∃ ts ws, Forms ts ws ∧ List.Forall₂ R ws vs ∧
    ∀ rest, Breaks rest → tokens .gap (cs ++ rest) = ts ++ tokens .gap rest

theorem plain_of_isNumeric {c : Char} (h : Number.IsNumeric c) : Plain c := by
  have hmark : (!delimiters.contains c) = true := by
    refine Number.IsNumeric.of_all (p := fun c => !delimiters.contains c)
      (fun c hc => ?_) (by decide) h
    have hne {d : Char} (hd : d.isDigit = false) : c ≠ d := Number.ne_of_isDigit hc hd
    simp [delimiters, hne]
  exact plain_iff.2 ⟨Number.isBlank_of_isNumeric h, by simpa using hmark⟩

theorem atom_of_isSymbol {n : String} (h : (atom n).isSymbol = true) : atom n = .symbol n := by
  unfold atom at h ⊢
  split
  · rfl
  · rename_i hu
    rw [if_neg hu] at h
    split
    · rename_i x hx
      rw [hx] at h
      cases h
    · rfl

/-- A bound on the nesting of a value is not zero. -/
theorem exists_succ_of_depth_le {v : Value} {d : Nat} (h : v.depth ≤ d) : ∃ k, d = k + 1 :=
  Nat.exists_eq_add_one_of_ne_zero (Nat.lt_of_lt_of_le (depth_pos v) h).ne'

theorem Value.depths_congr {ws vs : List Value}
    (h : List.Forall₂ (fun w v => w.depth = v.depth) ws vs) : depths ws = depths vs := by
  induction h with
  | nil => rfl
  | cons hd _ ih => rw [depths, depths, hd, ih]

namespace Value.Alike

theorem of_succ {w v : Value} (hdepth : w.depth = v.depth)
    (h : ∀ d, v.depth ≤ d + 1 → same? (d + 1) w v = some true) : Alike w v := by
  refine ⟨hdepth, fun d hd => ?_⟩
  obtain ⟨d, rfl⟩ := exists_succ_of_depth_le hd
  exact h d hd

theorem symbol (n : String) : Alike (.symbol n) (.symbol n) :=
  of_succ rfl fun d _ => by rw [same?, beq_self_eq_true]

theorem number {x y : Float} (h : (y == x) = true) : Alike (.number y) (.number x) :=
  of_succ rfl fun _ _ => congrArg some h

theorem depths_eq {ws vs : List Value} (h : List.Forall₂ Alike ws vs) :
    depths ws = depths vs :=
  depths_congr (h.imp fun _ _ hv => hv.depth)

theorem allM_same {ws vs : List Value} (h : List.Forall₂ Alike ws vs) {d : Nat}
    (hd : depths vs ≤ d) : ((ws.zip vs).allM fun (x, y) => same? d x y) = some true := by
  induction h with
  | nil => rfl
  | cons hv _ ih =>
    rw [depths, Nat.max_le] at hd
    simp only [List.zip_cons_cons, List.allM, hv.same d hd.1]
    exact ih hd.2

theorem list {ws vs : List Value} (h : List.Forall₂ Alike ws vs) : Alike (.list ws) (.list vs) := by
  refine of_succ (by rw [Value.depth, Value.depth, depths_eq h]) fun d hd => ?_
  rw [Value.depth, Nat.add_le_add_iff_right] at hd
  rw [same?, if_pos h.length_eq, allM_same h hd]

end Value.Alike

section Reads

variable {R : Value → Value → Prop}

theorem ReadsAs.word {w : String} {v : Value} (hne : w ≠ "") (hw : ∀ c ∈ w.toList, Plain c)
    (h : R (atom w) v) : ReadsAs R w.toList v :=
  ⟨[⟨.symbol, w⟩], atom w, .symbol rfl, h, fun _ hrest => tokens_gap_word hne hw hrest.stopsAt⟩

theorem ReadsAs.number {x : Float} (h : x.isNaN = false)
    (hR : ∀ y, (y == x) = true → Number.text y = Number.text x → R (.number y) (.number x)) :
    ReadsAs R (Number.text x).toList (.number x) := by
  obtain ⟨y, hread, hy, htext⟩ := Number.read?_text h
  have hatom : atom (Number.text x) = .number y := by
    rw [atom, hread, if_neg]
    rw [List.contains_iff_mem]
    intro hmem
    rcases Number.text_isNumeric h '_' hmem with h | h
    · cases h
    · exact absurd h (by decide)
  exact .word (Number.text_ne_empty h)
    (fun c hc => plain_of_isNumeric (Number.text_isNumeric h c hc)) (hatom ▸ hR y hy htext)

theorem ReadsAs.symbol {n : String} (hne : n ≠ "")
    (hplain : ∀ c ∈ n.toList, isBlank c = false ∧ c ∉ delimiters)
    (hatom : (atom n).isSymbol = true) (hR : R (.symbol n) (.symbol n)) :
    ReadsAs R n.toList (.symbol n) :=
  .word hne (fun c hc => plain_iff.2 (hplain c hc)) (atom_of_isSymbol hatom ▸ hR)

/-- Texts with blanks between them read one after the other. -/
theorem ReadsAll.intercalate {css : List (List Char)} {vs : List Value}
    (h : List.Forall₂ (ReadsAs R) css vs) : ReadsAll R ([' '].intercalate css) vs := by
  induction h with
  | nil => exact ⟨[], [], .nil, .nil, fun rest _ => rfl⟩
  | @cons cs v css vs hd htail ih =>
    obtain ⟨ts, w, hts, hw, hlex⟩ := hd
    obtain ⟨us, ws, hus, hws, hlex'⟩ := ih
    refine ⟨ts ++ us, w :: ws, .cons hts hus, .cons hw hws, fun rest hrest => ?_⟩
    cases htail with
    | nil =>
      have := hlex' rest hrest
      rw [List.intercalate_singleton, hlex rest hrest, List.append_assoc, ← this]
      rfl
    | cons _ _ =>
      have hblank : isBlank ' ' = true := by decide
      rw [List.intercalate_cons_cons, List.append_assoc, List.append_assoc, List.singleton_append,
        hlex _ (breaks_blank hblank _), tokens_blank hblank, hlex' rest hrest, List.append_assoc]

theorem ReadsAs.list {cs : List Char} {vs : List Value} (h : ReadsAll R cs vs)
    (hR : ∀ ws, List.Forall₂ R ws vs → R (.list ws) (.list vs)) :
    ReadsAs R ('(' :: (cs ++ [')'])) (.list vs) := by
  obtain ⟨ts, ws, hts, hws, hlex⟩ := h
  refine ⟨⟨.openParen, "("⟩ :: (ts ++ [⟨.closeParen, ")"⟩]), .list ws, .list rfl rfl hts, hR ws hws,
    fun rest _ => ?_⟩
  rw [List.cons_append, tokens_open, List.append_assoc, List.singleton_append,
    hlex _ (breaks_close rest), tokens_close]
  simp

theorem toList_texts (vs : List Value) :
    (" ".intercalate (Value.texts vs)).toList =
      [' '].intercalate (vs.map fun v => v.text.toList) := by
  rw [String.toList_intercalate]
  congr 1
  induction vs with
  | nil => rfl
  | cons v vs ih => rw [Value.texts, List.map_cons, ih, List.map_cons]

/-- If each text reads as its value, the texts read as the values. -/
theorem readsAll_texts {vs : List Value} (h : ∀ v ∈ vs, ReadsAs R v.text.toList v) :
    ReadsAll R (" ".intercalate (Value.texts vs)).toList vs := by
  rw [toList_texts]
  exact .intercalate (List.forall₂_map_left_iff.2 (List.forall₂_same.2 h))

theorem readsAs_list {vs : List Value} (h : ∀ v ∈ vs, ReadsAs R v.text.toList v)
    (hR : ∀ ws, List.Forall₂ R ws vs → R (.list ws) (.list vs)) :
    ReadsAs R (Value.list vs).text.toList (.list vs) := by
  rw [Value.text, String.toList_append, String.toList_append]
  exact .list (readsAll_texts h) hR

end Reads

/-- The display text of a readable value reads as the value. -/
theorem Value.Readable.readsAs {v : Value} (h : v.Readable) :
    ReadsAs Value.Alike v.text.toList v := by
  induction h with
  | number h => exact .number h fun y hy _ => .number hy
  | symbol hne hplain hatom => exact .symbol hne hplain hatom (.symbol _)
  | list _ ih => exact readsAs_list ih fun ws hws => .list hws

theorem Value.Readable.isSource {v : Value} (h : v.Readable) : v.IsSource := by
  induction h with
  | number _ => exact .number _
  | symbol _ _ _ => exact .symbol _
  | list _ ih => exact .list ih

/-- Nothing but nesting can stand in the way of displaying source data. -/
theorem Value.IsSource.obstacle?_eq {v : Value} (h : v.IsSource) {d : Nat} (hd : v.depth ≤ d) :
    v.obstacle? d = none := by
  induction h generalizing d with
  | number x =>
    obtain ⟨d, rfl⟩ := exists_succ_of_depth_le hd
    rfl
  | symbol n =>
    obtain ⟨d, rfl⟩ := exists_succ_of_depth_le hd
    rfl
  | list h ih =>
    obtain ⟨d, rfl⟩ := exists_succ_of_depth_le hd
    rw [Value.depth, Nat.add_le_add_iff_right] at hd
    rw [Value.obstacle?, List.findSome?_eq_none_iff]
    intro v hv
    exact ih v hv ((Value.depth_le_depths hv).trans hd)

theorem Value.IsSource.display_eq {v : Value} (h : v.IsSource) {bound : Nat}
    (hd : v.depth ≤ bound) : v.display bound = .ok v.text := by
  rw [Value.display, h.obstacle?_eq hd]

theorem mapM_display {vs : List Value} (h : ∀ v ∈ vs, v.Readable) {bound : Nat}
    (hd : Value.depths vs ≤ bound) :
    vs.mapM (Value.display bound) = .ok (Value.texts vs) := by
  induction vs with
  | nil => rfl
  | cons v vs ih =>
    rw [Value.depths, Nat.max_le] at hd
    rw [List.mapM_cons, (h v List.mem_cons_self).isSource.display_eq hd.1,
      ih (fun u hu => h u (List.mem_cons_of_mem v hu)) hd.2]
    rfl

/-- Readable values can all be displayed, and their texts with blanks between them read as an equal
list, unless they are nested deeper than the bound. -/
theorem display_reads_back {vs : List Value} (hr : ∀ v ∈ vs, v.Readable) {bound : Nat}
    (hd : Value.depths vs ≤ bound) :
    ∃ texts ws, vs.mapM (Value.display bound) = .ok texts ∧
      parseAll bound (" ".intercalate texts) = .ok ws ∧
      Value.same? (bound + 1) (.list ws) (.list vs) = some true := by
  obtain ⟨ts, ws, hts, hws, hlex⟩ := readsAll_texts fun v hv => (hr v hv).readsAs
  refine ⟨Value.texts vs, ws, mapM_display hr hd, ?_, ?_⟩
  · have htokens : lex (" ".intercalate (Value.texts vs)) = ts ++ [] := by
      have hall := hlex [] trivial
      rwa [List.append_nil, ← lex_eq_tokens] at hall
    rw [parseAll_eq, htokens, hts.readAllFrom_eq (Value.Alike.depths_eq hws ▸ hd)]
    simp [readAllFrom]
  · refine (Value.Alike.list hws).same (bound + 1) ?_
    rw [Value.depth]
    omega

/-- A symbol like a number, an empty list, a whole number, a fraction and a negative zero. -/
def Value.samples : List Value :=
  [.list [.symbol "1+", .list [], .number (Float.ofBits 0x4480F0CF064DD592)],
    .number (Float.ofBits 0x3FB999999999999A), .number (Float.ofBits 0x8000000000000000)]

theorem Value.samples_readable : ∀ v ∈ samples, v.Readable := by
  have hplain : ("1+".toList.all fun c =>
      !isBlank c && !delimiters.contains c) = true := by decide
  have hsymbol : (Value.symbol "1+").Readable :=
    .symbol (by decide) (fun c hc => by simpa using List.all_eq_true.1 hplain c hc)
      (by decide +kernel)
  have hempty : (Value.list []).Readable := .list nofun
  have hwhole : (Value.number (Float.ofBits 0x4480F0CF064DD592)).Readable :=
    .number (by decide +kernel)
  have hfraction : (Value.number (Float.ofBits 0x3FB999999999999A)).Readable :=
    .number (by decide +kernel)
  have hzero : (Value.number (Float.ofBits 0x8000000000000000)).Readable :=
    .number (by decide +kernel)
  simp only [samples, List.mem_cons, List.not_mem_nil, or_false, forall_eq_or_imp, forall_eq]
  refine ⟨.list ?_, hfraction, hzero⟩
  simp only [List.mem_cons, List.not_mem_nil, or_false, forall_eq_or_imp, forall_eq]
  exact ⟨hsymbol, hempty, hwhole⟩

theorem samples_read_back :
    (∀ v ∈ Value.samples, v.Readable) ∧ Value.depths Value.samples ≤ 2 ∧
      ∃ texts ws, Value.samples.mapM (Value.display 2) = .ok texts ∧
        parseAll 2 (" ".intercalate texts) = .ok ws ∧
        Value.same? 3 (.list ws) (.list Value.samples) = some true := by
  have hd : Value.depths Value.samples ≤ 2 := by
    simp [Value.samples, Value.depths, Value.depth]
  exact ⟨Value.samples_readable, hd, display_reads_back Value.samples_readable hd⟩

end Lisplet
