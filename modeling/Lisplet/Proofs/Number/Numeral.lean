import Lisplet.Number.Numeral
import Lisplet.Number.Written
import Lisplet.Proofs.Number.Shortest

/-! Decimals as text. `Spells` says which number a text of digits denotes, with a point and an
exponent or without, and says nothing about how it is parsed. Every layout of a decimal spells the
decimal, and every text that spells a number is parsed as digits and a scale of that value. -/

namespace Lisplet.Number

open Text

/-- Texts of decimal digits only. -/
def Digits (cs : List Char) : Prop := ∀ c ∈ cs, c.isDigit = true

theorem toNat_of_isDigit {c : Char} (h : c.isDigit = true) : 48 ≤ c.toNat ∧ c.toNat ≤ 57 :=
  Char.isDigit_iff_toNat.1 h

theorem digit?_of_isDigit {c : Char} (h : c.isDigit = true) : digit? c = some (c.toNat - 48) := by
  have hc := toNat_of_isDigit h
  rw [digit?, digitZeros, List.findSome?_cons, if_pos]
  simp
  omega

theorem Digits.append {cs ds : List Char} (h : Digits cs) (h' : Digits ds) : Digits (cs ++ ds) :=
  fun c hc => (List.mem_append.1 hc).elim (h c) (h' c)

theorem Digits.take {cs : List Char} (h : Digits cs) (n : Nat) : Digits (cs.take n) :=
  fun c hc => h c (List.mem_of_mem_take hc)

theorem Digits.drop {cs : List Char} (h : Digits cs) (n : Nat) : Digits (cs.drop n) :=
  fun c hc => h c (List.mem_of_mem_drop hc)

theorem digits_toDigits (n : Nat) : Digits (Nat.toDigits 10 n) :=
  fun _ hc => Nat.isDigit_of_mem_toDigits (by decide) le_rfl hc

theorem digits_replicate (n : Nat) : Digits (List.replicate n '0') := by
  intro c hc
  rw [List.eq_of_mem_replicate hc]
  rfl

/-- The values of decimal digits. -/
def values (cs : List Char) : List Nat :=
  cs.map fun c => c.toNat - 48

theorem digitsValue_values (cs : List Char) :
    digitsValue (values cs) = Nat.ofDigitChars 10 cs 0 := by
  rw [digitsValue, values, List.foldl_map, Nat.ofDigitChars_eq_foldl]
  rfl

theorem values_append (cs ds : List Char) : values (cs ++ ds) = values cs ++ values ds :=
  List.map_append

theorem length_values (cs : List Char) : (values cs).length = cs.length :=
  List.length_map _

theorem Digits.spanDigits_append {cs : List Char} (h : Digits cs) {rest : List Char}
    (hrest : spanDigits rest = ([], rest)) : spanDigits (cs ++ rest) = (values cs, rest) := by
  induction cs with
  | nil => exact hrest
  | cons c cs ih =>
    rw [List.cons_append, spanDigits, digit?_of_isDigit (h c List.mem_cons_self)]
    simp only [ih fun d hd => h d (List.mem_cons_of_mem c hd)]
    rfl

theorem Digits.spanDigits_eq {cs : List Char} (h : Digits cs) :
    spanDigits cs = (values cs, []) := by
  have happend := h.spanDigits_append (show spanDigits [] = ([], []) from rfl)
  rwa [List.append_nil] at happend

/-- The text of an exponent, which may be missing, and what it says. -/
inductive Exponent : List Char → Int → Prop where
  | absent : Exponent [] 0
  | present (negative : Bool) {ds : List Char} (hne : ds ≠ []) (hd : Digits ds) :
      Exponent ('e' :: (if negative then '-' else '+') :: ds)
        (signed negative (Nat.ofDigitChars 10 ds 0))

theorem splitSign_sign (negative : Bool) (cs : List Char) :
    splitSign ((if negative then '-' else '+') :: cs) = (negative, cs) := by
  cases negative <;> rfl

theorem Exponent.exponent?_eq {xs : List Char} {e : Int} (h : Exponent xs e) :
    exponent? xs = some e := by
  cases h with
  | absent => rfl
  | present negative hne hd =>
    obtain ⟨d, ds, rfl⟩ := List.exists_cons_of_ne_nil hne
    rw [exponent?, if_pos (by rfl), splitSign_sign, hd.spanDigits_eq, ← digitsValue_values]
    rfl

theorem Exponent.spanDigits_eq {xs : List Char} {e : Int} (h : Exponent xs e) :
    spanDigits xs = ([], xs) := by
  cases h with
  | absent => rfl
  | present negative hne hd => rfl

theorem Exponent.fraction_eq {xs : List Char} {e : Int} (h : Exponent xs e) :
    fraction xs = ([], xs) := by
  cases h with
  | absent => rfl
  | present negative hne hd => rfl

/-- The text of a fraction; without digits the point is left out. -/
def pointed : List Char → List Char
  | [] => []
  | f :: fs => '.' :: f :: fs

/-- The texts of decimals, each with the number that it denotes. -/
inductive Spells : List Char → ℚ → Prop where
  | mk {ws fs xs : List Char} {e : Int} (hne : ws ≠ []) (hw : Digits ws) (hf : Digits fs)
      (hx : Exponent xs e) :
      Spells (ws ++ (pointed fs ++ xs)) (Nat.ofDigitChars 10 (ws ++ fs) 0 * 10 ^ (e - fs.length))

theorem spanDigits_pointed {fs xs : List Char} (hf : Digits fs) {e : Int} (hx : Exponent xs e) :
    spanDigits (pointed fs ++ xs) = ([], pointed fs ++ xs) := by
  cases fs with
  | nil => exact hx.spanDigits_eq
  | cons f fs => rfl

theorem fraction_pointed {fs xs : List Char} (hf : Digits fs) {e : Int} (hx : Exponent xs e) :
    fraction (pointed fs ++ xs) = (values fs, xs) := by
  cases fs with
  | nil => exact hx.fraction_eq
  | cons f fs => exact hf.spanDigits_append hx.spanDigits_eq

/-- A text that spells a number is parsed as digits and a scale with that value. -/
theorem Spells.decimal?_eq {cs : List Char} {q : ℚ} (h : Spells cs q) (negative : Bool) :
    ∃ ds scale, decimal? negative cs = some (.decimal negative ds scale) ∧
      (∀ d ∈ ds, d < 10) ∧ (digitsValue ds : ℚ) * 10 ^ scale = q := by
  obtain ⟨hne, hw, hf, hx⟩ := h
  rename_i ws fs xs e
  refine ⟨values (ws ++ fs), e - fs.length, ?_, ?_, ?_⟩
  · rw [decimal?]
    simp only [hw.spanDigits_append (spanDigits_pointed hf hx), fraction_pointed hf hx,
      hx.exponent?_eq, ← values_append]
    rw [length_values]
    obtain ⟨w, ws, rfl⟩ := List.exists_cons_of_ne_nil hne
    rfl
  · intro d hd
    obtain ⟨c, hc, rfl⟩ := List.mem_map.1 hd
    have := toNat_of_isDigit (hw.append hf c hc)
    omega
  · rw [digitsValue_values]

theorem Spells.head {cs : List Char} {q : ℚ} (h : Spells cs q) :
    ∃ c tail, cs = c :: tail ∧ c.isDigit = true := by
  obtain ⟨hne, hw, hf, hx⟩ := h
  obtain ⟨w, ws, rfl⟩ := List.exists_cons_of_ne_nil hne
  exact ⟨w, _, rfl, hw w List.mem_cons_self⟩

/-- The characters that numbers are written with. -/
def IsNumeric (c : Char) : Prop :=
  c.isDigit = true ∨ c ∈ ['.', 'e', '+', '-', 'i', 'n', 'f']

/-- What is checked for the seven marks and proved for the digits holds of all these characters. -/
theorem IsNumeric.of_all {p : Char → Bool} (hdigit : ∀ c, c.isDigit = true → p c = true)
    (hmark : ['.', 'e', '+', '-', 'i', 'n', 'f'].all p = true) {c : Char} (h : IsNumeric c) :
    p c = true :=
  h.elim (hdigit c) (List.all_eq_true.1 hmark c)

theorem Exponent.isNumeric {xs : List Char} {e : Int} (h : Exponent xs e) :
    ∀ c ∈ xs, IsNumeric c := by
  cases h with
  | absent => nofun
  | present negative hne hd =>
    intro c hc
    rcases List.mem_cons.1 hc with rfl | hc
    · exact .inr (by decide)
    rcases List.mem_cons.1 hc with rfl | hc
    · cases negative <;> exact .inr (by decide)
    · exact .inl (hd c hc)

theorem isNumeric_pointed {fs : List Char} (hf : Digits fs) : ∀ c ∈ pointed fs, IsNumeric c := by
  cases fs with
  | nil => nofun
  | cons f fs =>
    intro c hc
    rcases List.mem_cons.1 hc with rfl | hc
    · exact .inr (by decide)
    · exact .inl (hf c hc)

theorem Spells.isNumeric {cs : List Char} {q : ℚ} (h : Spells cs q) : ∀ c ∈ cs, IsNumeric c := by
  obtain ⟨hne, hw, hf, hx⟩ := h
  intro c hc
  rcases List.mem_append.1 hc with hc | hc
  · exact .inl (hw c hc)
  rcases List.mem_append.1 hc with hc | hc
  · exact isNumeric_pointed hf c hc
  · exact hx.isNumeric c hc

theorem spells_toDigits (n : Nat) : Spells (Nat.toDigits 10 n) n := by
  have h := Spells.mk Nat.toDigits_ne_nil (digits_toDigits n) (digits_replicate 0) .absent
  simpa [pointed] using h

theorem toLower_of_isDigit {c : Char} (h : c.isDigit = true) : c.toLower = c := by
  have hc := toNat_of_isDigit h
  have hval : ¬ (65 ≤ c.val ∧ c.val ≤ 90) := by
    rintro ⟨hlow, -⟩
    have : 65 ≤ c.toNat := hlow
    omega
  unfold Char.toLower
  exact dif_neg hval

theorem ne_of_isDigit {c d : Char} (h : c.isDigit = true) (hd : d.isDigit = false) : c ≠ d := by
  rintro rfl
  rw [h] at hd
  cases hd

theorem splitSign_of_isDigit {c : Char} (h : c.isDigit = true) (cs : List Char) :
    splitSign (c :: cs) = (false, c :: cs) := by
  unfold splitSign
  split
  · rename_i heq
    exact absurd (List.cons.inj heq).1 (ne_of_isDigit h rfl)
  · rename_i heq
    exact absurd (List.cons.inj heq).1 (ne_of_isDigit h rfl)
  · rfl

theorem Spells.unpadded?_eq {cs : List Char} {q : ℚ} (h : Spells cs q) (negative : Bool) :
    unpadded? ((if negative then ['-'] else []) ++ cs) = decimal? negative cs := by
  obtain ⟨c, tail, rfl, hc⟩ := h.head
  have hsign : splitSign ((if negative then ['-'] else []) ++ c :: tail) =
      (negative, c :: tail) := by
    cases negative
    · exact splitSign_of_isDigit hc tail
    · rfl
  have hword (d : Char) (ds : List Char) (hd : d.isDigit = false) :
      (c :: tail).map Char.toLower ≠ d :: ds := by
    rw [List.map_cons, toLower_of_isDigit hc]
    exact fun heq => ne_of_isDigit hc hd (List.cons.inj heq).1
  rw [unpadded?, hsign]
  simp only
  split
  · rename_i heq
    exact absurd heq (hword 'n' _ rfl)
  · rename_i heq
    exact absurd heq (hword 'i' _ rfl)
  · rename_i heq
    exact absurd heq (hword 'i' _ rfl)
  · rfl

theorem dropWhile_eq_self {p : Char → Bool} {cs : List Char} (h : ∀ c ∈ cs.head?, p c = false) :
    cs.dropWhile p = cs := by
  rw [List.dropWhile_eq_self_iff]
  intro hl
  have hhead := h cs[0] (by simp [List.head?_eq_getElem?, hl])
  simp [hhead]

theorem trimBy_eq_self {p : Char → Bool} {cs : List Char} (h : ∀ c ∈ cs, p c = false) :
    trimBy p cs = cs := by
  rw [trimBy, dropWhile_eq_self fun c hc => h c (List.mem_of_mem_head? hc), dropWhile_eq_self,
    List.reverse_reverse]
  intro c hc
  exact h c (List.mem_reverse.1 (List.mem_of_mem_head? hc))

theorem isBlank_of_isDigit {c : Char} (h : c.isDigit = true) : isBlank c = false := by
  have hc := toNat_of_isDigit h
  simp [isBlank]
  omega

theorem isBlank_of_isNumeric {c : Char} (h : IsNumeric c) : isBlank c = false := by
  have hblank : (!isBlank c) = true := by
    refine IsNumeric.of_all (p := fun c => !isBlank c) (fun c hc => ?_) (by decide) h
    rw [isBlank_of_isDigit hc, Bool.not_false]
  simpa using hblank

theorem toList_zeros (n : Nat) : (zeros n).toList = List.replicate n '0' :=
  String.toList_ofList

theorem ofDigitChars_zeros_append (n : Nat) (cs : List Char) :
    Nat.ofDigitChars 10 (List.replicate n '0' ++ cs) 0 = Nat.ofDigitChars 10 cs 0 := by
  rw [Nat.ofDigitChars_append, Nat.ofDigitChars_replicate_zero, Nat.mul_zero]

theorem ofDigitChars_append_zeros (n : Nat) (cs : List Char) :
    Nat.ofDigitChars 10 (cs ++ List.replicate n '0') 0 = Nat.ofDigitChars 10 cs 0 * 10 ^ n := by
  rw [Nat.ofDigitChars_append, Nat.ofDigitChars_replicate_zero, Nat.mul_comm]

theorem Layout.exponent_spec (l : Layout) (e : Int) : Exponent (l.exponent e).toList e := by
  have h := Exponent.present (e < 0)
    (List.append_ne_nil_of_right_ne_nil
      (List.replicate (l.exponentWidth - (toString e.natAbs).length) '0') Nat.toDigits_ne_nil)
    ((digits_replicate _).append (digits_toDigits e.natAbs))
  rw [ofDigitChars_zeros_append, Nat.ofDigitChars_ten_toDigits] at h
  have hsigned : signed (e < 0) e.natAbs = e := by
    unfold signed
    by_cases he : e < 0
    · rw [if_pos (decide_eq_true he)]
      omega
    · rw [if_neg (by rwa [decide_eq_true_eq])]
      omega
  have htext : (l.exponent e).toList = 'e' :: (if decide (e < 0) then '-' else '+') ::
      (List.replicate (l.exponentWidth - (toString e.natAbs).length) '0' ++
        Nat.toDigits 10 e.natAbs) := by
    have hdigits : (toString e.natAbs).toList = Nat.toDigits 10 e.natAbs := Nat.toList_repr
    rw [Layout.exponent, String.toList_append, String.toList_append, String.toList_append,
      toList_zeros, hdigits]
    by_cases he : e < 0
    · rw [if_pos he, if_pos (decide_eq_true he)]
      rfl
    · rw [if_neg he, if_neg (by rwa [decide_eq_true_eq])]
      rfl
  rwa [hsigned, ← htext] at h

theorem pointed_of_ne_nil {fs : List Char} (h : fs ≠ []) : pointed fs = '.' :: fs := by
  obtain ⟨f, fs, rfl⟩ := List.exists_cons_of_ne_nil h
  rfl

/-- A text with a point spells its digits, scaled by the length of the fraction. -/
theorem spells_positional {ws fs : List Char} (hne : ws ≠ []) (hne' : fs ≠ []) (hw : Digits ws)
    (hf : Digits fs) :
    Spells (ws ++ '.' :: fs) (Nat.ofDigitChars 10 (ws ++ fs) 0 * 10 ^ (-(fs.length : Int))) := by
  have h := Spells.mk hne hw hf .absent
  rwa [List.append_nil, pointed_of_ne_nil hne', zero_sub] at h

theorem spells_below_one {cs : List Char} (hne : cs ≠ []) (hd : Digits cs) (k : Nat) :
    Spells (['0', '.'] ++ List.replicate k '0' ++ cs)
      (Nat.ofDigitChars 10 cs 0 * 10 ^ (-(k + cs.length : Int))) := by
  have h := spells_positional (List.cons_ne_nil '0' [])
    (List.append_ne_nil_of_right_ne_nil (List.replicate k '0') hne) (digits_replicate 1)
    ((digits_replicate k).append hd)
  rw [show ['0'] = List.replicate 1 '0' from rfl, ofDigitChars_zeros_append,
    ofDigitChars_zeros_append, List.length_append, List.length_replicate, Nat.cast_add] at h
  exact h

theorem spells_whole {cs : List Char} (hne : cs ≠ []) (hd : Digits cs) (k : Nat) :
    Spells (cs ++ List.replicate k '0' ++ ['.', '0'])
      (Nat.ofDigitChars 10 cs 0 * 10 ^ (k : Int)) := by
  have h := spells_positional (List.append_ne_nil_of_left_ne_nil hne (List.replicate k '0'))
    (List.cons_ne_nil '0' []) (hd.append (digits_replicate k)) (digits_replicate 1)
  rw [show ['0'] = List.replicate 1 '0' from rfl, ofDigitChars_append_zeros,
    ofDigitChars_append_zeros, List.length_replicate] at h
  have hscale : ((Nat.ofDigitChars 10 cs 0 * 10 ^ k * 10 ^ 1 : Nat) : ℚ) *
      10 ^ (-((1 : Nat) : Int)) = Nat.ofDigitChars 10 cs 0 * 10 ^ (k : Int) := by
    rw [Nat.cast_mul, mul_assoc, zpow_neg, zpow_natCast, Nat.cast_pow, Nat.cast_ofNat,
      mul_inv_cancel₀ (by norm_num), mul_one, Nat.cast_mul, zpow_natCast, Nat.cast_pow,
      Nat.cast_ofNat]
  rwa [hscale] at h

theorem take_ne_nil {cs : List Char} (hne : cs ≠ []) {k : Nat} (hk : 0 < k) : cs.take k ≠ [] := by
  rw [Ne, List.take_eq_nil_iff]
  exact fun h => h.elim hk.ne' hne

theorem spells_split {cs : List Char} (hd : Digits cs) {k : Nat} (hk : 0 < k)
    (hlt : k < cs.length) :
    Spells (cs.take k ++ '.' :: cs.drop k)
      (Nat.ofDigitChars 10 cs 0 * 10 ^ (-((cs.length - k : Nat) : Int))) := by
  have hne : cs ≠ [] := List.length_pos_iff.1 (by omega)
  have hdrop : cs.drop k ≠ [] := by
    rw [Ne, List.drop_eq_nil_iff]
    omega
  have h := spells_positional (take_ne_nil hne hk) hdrop (hd.take k) (hd.drop k)
  rwa [List.take_append_drop, List.length_drop] at h

theorem spells_scientific {cs xs : List Char} {e : Int} (hne : cs ≠ []) (hd : Digits cs)
    (hx : Exponent xs e) :
    Spells (cs.take 1 ++ (pointed (cs.drop 1) ++ xs))
      (Nat.ofDigitChars 10 cs 0 * 10 ^ (e - (cs.length - 1))) := by
  have h := Spells.mk (take_ne_nil hne Nat.one_pos) (hd.take 1) (hd.drop 1) hx
  rw [List.take_append_drop, List.length_drop, Nat.cast_sub (List.length_pos_iff.2 hne)] at h
  exact h

theorem pointed_drop_one (cs : List Char) :
    (if cs.length ≤ 1 then [] else '.' :: cs.drop 1) = pointed (cs.drop 1) := by
  split
  · rename_i hle
    rw [List.drop_eq_nil_of_le hle]
    rfl
  · rename_i hgt
    rw [pointed_of_ne_nil (by rwa [Ne, List.drop_eq_nil_iff])]

/-- What a layout writes spells the number that it is given. -/
theorem Layout.spells_write (l : Layout) (d : Decimal) : Spells (l.write d).toList d.value := by
  have hd := digits_toDigits d.digits
  have hne := @Nat.toDigits_ne_nil d.digits 10
  have hv := @Nat.ofDigitChars_ten_toDigits d.digits
  unfold Layout.write Decimal.value
  simp only [apply_ite String.toList, String.toList_append, toList_zeros, String.toList_ofList]
  generalize Nat.toDigits 10 d.digits = cs at hd hne hv ⊢
  have hlen : 0 < cs.length := List.length_pos_iff.2 hne
  rw [← hv]
  generalize hlead : d.scale + cs.length - 1 = lead
  split
  · split
    · have h := spells_below_one hne hd (-lead - 1).toNat
      rwa [show -(((-lead - 1).toNat : Int) + cs.length) = d.scale by omega] at h
    · split
      · have h := spells_whole hne hd (lead.toNat + 1 - cs.length)
        rwa [show ((lead.toNat + 1 - cs.length : Nat) : Int) = d.scale by omega] at h
      · have h := spells_split hd (Nat.succ_pos lead.toNat) (by omega)
        rw [show -((cs.length - (lead.toNat + 1) : Nat) : Int) = d.scale by omega] at h
        rw [List.append_assoc]
        exact h
  · have h := spells_scientific hne hd (l.exponent_spec lead)
    rw [show lead - (cs.length - 1) = d.scale by omega, ← pointed_drop_one] at h
    rw [List.append_assoc]
    exact h

end Lisplet.Number
