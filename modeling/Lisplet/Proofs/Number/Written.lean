import Lisplet.Proofs.Number.Numeral

/-! What is displayed reads back, for every double that is a number. A whole number is displayed
exactly, and any other by its shortest decimal, so in both cases the digits lie in the interval that
reads as the number. The scale of such a numeral is never so large or so small that it is not
expanded. Only the sign of zero is lost. -/

namespace Lisplet.Number

open Text

theorem foldl_digits (n : Nat) (ds : List Nat) :
    ds.foldl (fun n d => 10 * n + d) n = n * 10 ^ ds.length + digitsValue ds := by
  induction ds generalizing n with
  | nil => simp [digitsValue]
  | cons d ds ih =>
    rw [digitsValue, List.foldl_cons, List.foldl_cons, ih, ih (10 * 0 + d), List.length_cons,
      pow_succ]
    ring

theorem digitsValue_cons (d : Nat) (ds : List Nat) :
    digitsValue (d :: ds) = d * 10 ^ ds.length + digitsValue ds := by
  rw [digitsValue, List.foldl_cons, foldl_digits]
  ring

theorem digitsValue_lt {ds : List Nat} (h : ∀ d ∈ ds, d < 10) :
    digitsValue ds < 10 ^ ds.length := by
  induction ds with
  | nil => decide
  | cons d ds ih =>
    have hd := h d List.mem_cons_self
    have hds := ih fun d hd => h d (List.mem_cons_of_mem _ hd)
    rw [digitsValue_cons, List.length_cons, pow_succ]
    nlinarith

theorem digitsValue_dropWhile (ds : List Nat) :
    digitsValue (ds.dropWhile (· = 0)) = digitsValue ds := by
  induction ds with
  | nil => rfl
  | cons d ds ih =>
    by_cases hd : d = 0
    · rw [List.dropWhile_cons_of_pos (by simpa using hd), ih, digitsValue_cons, hd]
      simp
    · rw [List.dropWhile_cons_of_neg (by simpa using hd)]

/-- Without leading zeros the count of digits gives the size of the number. -/
theorem pow_le_digitsValue {d : Nat} {ds : List Nat} (hd : d ≠ 0) :
    10 ^ ds.length ≤ digitsValue (d :: ds) := by
  rw [digitsValue_cons]
  have : 1 * 10 ^ ds.length ≤ d * 10 ^ ds.length := Nat.mul_le_mul_right _ (by omega)
  omega

theorem ne_zero_of_dropWhile {ds tail : List Nat} {d : Nat}
    (h : ds.dropWhile (· = 0) = d :: tail) : d ≠ 0 := by
  have hhead := List.head?_dropWhile_not (· = 0) ds
  rw [h] at hhead
  simpa using hhead

theorem scaled_size {d : Nat} {ds : List Nat} (hd : d ≠ 0) (hds : ∀ c ∈ d :: ds, c < 10)
    (scale : Int) :
    (10 : ℚ) ^ (ds.length + scale) ≤ digitsValue (d :: ds) * 10 ^ scale ∧
      digitsValue (d :: ds) * 10 ^ scale < (10 : ℚ) ^ ((d :: ds).length + scale) := by
  rw [zpow_add₀ (by norm_num), zpow_add₀ (by norm_num), zpow_natCast, zpow_natCast]
  constructor
  · gcongr
    exact_mod_cast pow_le_digitsValue hd
  · gcongr
    exact_mod_cast digitsValue_lt hds

theorem ten_zpow_lt : (10 : ℚ) ^ (-330 : Int) < 1 / 2 * 2 ^ (-1074 : Int) := by
  have h : ((2 : ℚ) ^ 215) ^ 5 < (10 ^ 66) ^ 5 :=
    pow_lt_pow_left₀ (by norm_num) (by positivity) (by decide)
  rw [show (-330 : Int) = -((66 * 5 : Nat) : Int) from rfl, zpow_neg, zpow_natCast, pow_mul]
  refine (inv_strictAnti₀ (by positivity) h).trans_eq ?_
  rw [← pow_mul, ← zpow_natCast, ← zpow_neg, one_div, ← zpow_neg_one, ← zpow_add₀ two_ne_zero]
  rfl

theorem two_zpow_lt : (2 : ℚ) ^ 53 * 2 ^ (971 : Int) < 10 ^ (310 : Int) := by
  have h : ((2 : ℚ) ^ 205) ^ 5 < (10 ^ 62) ^ 5 :=
    pow_lt_pow_left₀ (by norm_num) (by positivity) (by decide)
  rw [show (310 : Int) = ((62 * 5 : Nat) : Int) from rfl, zpow_natCast, pow_mul]
  refine lt_of_le_of_lt ?_ h
  rw [← pow_mul, ← zpow_natCast, ← zpow_natCast, ← zpow_add₀ two_ne_zero]
  exact zpow_le_zpow_right₀ one_le_two (by decide)

/-- The doubles are far inside the powers of ten at which a numeral is not expanded. -/
theorem Reads.between_pow {m : Nat} {e : Int} {q : ℚ} (h : Reads m e q) (hc : Canonical m e)
    (hm : 0 < m) : (10 : ℚ) ^ (-330 : Int) < q ∧ q < 10 ^ (310 : Int) := by
  have hm' : (1 : ℚ) ≤ m := by exact_mod_cast hm
  have hmlt : (m : ℚ) + 1 ≤ 2 ^ 53 := by exact_mod_cast hc.lt
  have hleast : (2 : ℚ) ^ (-1074 : Int) ≤ 2 ^ e := zpow_le_zpow_right₀ one_le_two hc.least
  have hmost : (2 : ℚ) ^ e ≤ 2 ^ (971 : Int) := zpow_le_zpow_right₀ one_le_two hc.most
  have hu : (0 : ℚ) < 2 ^ e := by positivity
  constructor
  · calc (10 : ℚ) ^ (-330 : Int) < 1 / 2 * 2 ^ (-1074 : Int) := ten_zpow_lt
      _ ≤ (m - 1 / 2) * 2 ^ e :=
        mul_le_mul (by linarith only [hm']) hleast (by positivity) (by linarith only [hm'])
      _ ≤ q := h.half_low hm
  · calc q ≤ (m + 1 / 2) * 2 ^ e := h.half_high
      _ ≤ 2 ^ 53 * 2 ^ (971 : Int) :=
        mul_le_mul (by linarith only [hmlt]) hmost hu.le (by norm_num)
      _ < 10 ^ (310 : Int) := two_zpow_lt

theorem value_decimal {m : Nat} {e : Int} {ds : List Nat} {scale : Int} (hc : Canonical m e)
    (hm : 0 < m) (hds : ∀ d ∈ ds, d < 10) (h : Reads m e (digitsValue ds * 10 ^ scale))
    (negative : Bool) :
    (Numeral.decimal negative ds scale).value =
      ofMagnitude negative ((e - leastExponent).toNat * pow2 52 + m) := by
  obtain ⟨hlow, hhigh⟩ := h.between_pow hc hm
  have hlead : ∀ d tail, ds.dropWhile (· = 0) = d :: tail → d ≠ 0 :=
    fun _ _ => ne_zero_of_dropWhile
  have hlt : ∀ d ∈ ds.dropWhile (· = 0), d < 10 :=
    fun d hd => hds d ((List.dropWhile_sublist _).mem hd)
  rw [← digitsValue_dropWhile] at h hlow hhigh
  unfold Numeral.value
  simp only
  generalize ds.dropWhile (· = 0) = ds at *
  cases ds with
  | nil =>
    have := h.pos hm
    simp [digitsValue] at this
  | cons d ds =>
    obtain ⟨hsize, hsize'⟩ := scaled_size (hlead d ds rfl) hlt scale
    have hone : (1 : ℚ) < 10 := by norm_num
    have hleast := (zpow_lt_zpow_iff_right₀ hone).1 (hlow.trans hsize')
    have hmost := (zpow_lt_zpow_iff_right₀ hone).1 (hsize.trans_lt hhigh)
    rw [List.length_cons] at hleast ⊢
    rw [if_neg, if_neg, nearest, Reads.nearestBits_eq _ hc hm]
    · exact Nat.pow_pos (by decide)
    · rwa [pow10_eq, pow10_eq, scaled_div, Nat.cast_ofNat]
    · omega
    · simp
      omega

theorem Reads.self {m : Nat} (hm : 0 < m) (e : Int) : Reads m e (m * 2 ^ e) := by
  have hu : (0 : ℚ) < 2 ^ e := by positivity
  exact .of_lt hm (by linarith) (by linarith) fun _ => le_rfl

theorem isPadding_of_isNumeric {c : Char} (h : IsNumeric c) : isPadding c = false := by
  rw [isPadding, isBlank_of_isNumeric h, Bool.false_and]

theorem Spells.signed_isNumeric {cs : List Char} {q : ℚ} (h : Spells cs q) (negative : Bool) :
    ∀ c ∈ (if negative then ['-'] else []) ++ cs, IsNumeric c := by
  intro c hc
  rcases List.mem_append.1 hc with hc | hc
  · cases negative
    · cases hc
    · cases List.mem_singleton.1 hc
      exact .inr (by decide)
  · exact h.isNumeric c hc

/-- A text of a sign and digits in the interval of a double reads as the double. -/
theorem Spells.read?_eq {text : String} {x : Float} {negative : Bool} {m : Nat} {e : Int}
    {cs : List Char} {q : ℚ} (h : Spells cs q)
    (htext : text.toList = (if negative then ['-'] else []) ++ cs)
    (hx : parts x = .finite negative m e) (hm : 0 < m) (hq : Reads m e q) :
    read? text = some x := by
  obtain ⟨hc, hbits⟩ := ofMagnitude_of_parts hx
  obtain ⟨ds, scale, hparse, hds, hvalue⟩ := h.decimal?_eq negative
  have htrim : trimBy isPadding text.toList = text.toList :=
    trimBy_eq_self fun c hc' => isPadding_of_isNumeric (h.signed_isNumeric negative c (htext ▸ hc'))
  rw [← hvalue] at hq
  rw [read?, Numeral.parse?, htrim, htext, h.unpadded?_eq, hparse, Option.map_some,
    value_decimal hc hm hds hq, hbits]

/-- The ways in which a double is displayed. -/
inductive Displayed (x : Float) : String → Prop where
  | infinite {negative : Bool} (hx : parts x = .infinite negative) :
      Displayed x (if negative then "-inf" else "inf")
  | zero {negative : Bool} {e : Int} (hx : parts x = .finite negative 0 e) : Displayed x "0"
  | finite {negative : Bool} {m : Nat} {e : Int} {text : String} {cs : List Char} {q : ℚ}
      (hx : parts x = .finite negative m e) (hm : 0 < m) (hq : Reads m e q) (h : Spells cs q)
      (htext : text.toList = (if negative then ['-'] else []) ++ cs) : Displayed x text

theorem displayed_literal {x : Float} {negative : Bool} {m : Nat} {e : Int}
    (hx : parts x = .finite negative m e) (hm : 0 < m) : Displayed x (literal x) := by
  obtain ⟨hc, -⟩ := ofMagnitude_of_parts hx
  refine .finite hx hm (reads_shortest hc hm) (literalLayout.spells_write _) ?_
  rw [literal, hx]
  simp only [hm.ne', if_false, String.toList_append]
  cases negative <;> rfl

theorem toList_toString_int (negative : Bool) {n : Nat} (hn : 0 < n) :
    (toString (if negative then -(n : Int) else n)).toList =
      (if negative then ['-'] else []) ++ Nat.toDigits 10 n := by
  obtain ⟨k, rfl⟩ := Nat.exists_eq_succ_of_ne_zero hn.ne'
  cases negative
  · exact Nat.toList_repr
  · change ("-" ++ Nat.repr (k + 1)).toList = _
    rw [String.toList_append, Nat.toList_repr]
    rfl

/-- A whole number is displayed by all its digits, which denote it exactly. -/
theorem displayed_whole {x : Float} {negative : Bool} {m : Nat} {e : Int}
    (hx : parts x = .finite negative m e) (hm : 0 < m)
    (hmod : m * pow2 e.toNat % pow2 (-e).toNat = 0) :
    Displayed x (toString (if negative then -((m * pow2 e.toNat / pow2 (-e).toNat : Nat) : Int)
      else ((m * pow2 e.toNat / pow2 (-e).toNat : Nat) : Int))) := by
  have hden : 0 < pow2 (-e).toNat := Nat.two_pow_pos _
  have hdvd := Nat.dvd_of_mod_eq_zero hmod
  have hpos : 0 < m * pow2 e.toNat / pow2 (-e).toNat :=
    Nat.div_pos (Nat.le_of_dvd (Nat.mul_pos hm (Nat.two_pow_pos _)) hdvd) hden
  have hvalue : ((m * pow2 e.toNat / pow2 (-e).toNat : Nat) : ℚ) = m * 2 ^ e := by
    rw [Nat.cast_div hdvd (by exact_mod_cast hden.ne'), pow2_eq, pow2_eq, scaled_div,
      Nat.cast_ofNat]
  refine .finite hx hm ?_ (spells_toDigits _) (toList_toString_int negative hpos)
  rw [hvalue]
  exact .self hm e

theorem displayed_text {x : Float} (h : x.isNaN = false) : Displayed x (text x) := by
  rw [text, integer?]
  cases hx : parts x with
  | nan =>
    rw [isNaN_of_parts hx] at h
    cases h
  | infinite negative =>
    simp only
    rw [literal, hx]
    exact .infinite hx
  | finite negative m e =>
    simp only
    rcases Nat.eq_zero_or_pos m with rfl | hm
    · rw [Nat.zero_mul, Nat.zero_mod, if_pos rfl, Nat.zero_div]
      have hzero : (if negative = true then -Int.ofNat 0 else Int.ofNat 0) = 0 := by
        cases negative <;> rfl
      rw [hzero]
      exact .zero hx
    · split
      · rename_i n hn
        split at hn
        · rename_i hmod
          cases hn
          exact displayed_whole hx hm hmod
        · cases hn
      · exact displayed_literal hx hm

theorem read?_infinite (negative : Bool) :
    read? (if negative then "-inf" else "inf") = some (infinity negative) := by
  cases negative <;> rfl

theorem zero_beq_zero (a b : Bool) : (ofMagnitude a 0 == ofMagnitude b 0) = true := by
  cases a <;> cases b <;> decide +kernel

/-- A number that is displayed reads back as an equal number, and as one of the same text. -/
theorem read?_text {x : Float} (h : x.isNaN = false) :
    ∃ y, read? (text x) = some y ∧ (y == x) = true ∧ text y = text x := by
  generalize htext : text x = t
  cases htext ▸ displayed_text h with
  | infinite hx =>
    rename_i negative
    refine ⟨infinity negative, read?_infinite negative, ?_, ?_⟩
    · rw [infinity_of_parts hx, beq_self h]
    · rw [infinity_of_parts hx, htext]
  | zero hx =>
    obtain ⟨hc, hbits⟩ := ofMagnitude_of_parts hx
    rw [hc.leading.resolve_right (by decide), Int.sub_self] at hbits
    exact ⟨ofMagnitude false 0, rfl, hbits ▸ zero_beq_zero false _, by decide +kernel⟩
  | finite hx hm hq hs ht => exact ⟨x, hs.read?_eq ht hx hm hq, beq_self h, htext⟩

theorem text_of_isNaN {x : Float} (h : x.isNaN = true) : text x = "nan" := by
  rw [text, integer?, parts_of_isNaN h, literal, parts_of_isNaN h]

theorem read?_nan : ∃ y, read? "nan" = some y ∧ text y = "nan" :=
  ⟨Numeral.value (.nan false), rfl, text_of_isNaN (by decide +kernel)⟩

theorem isNumeric_letters {cs : List Char}
    (h : (cs.all fun c => ['.', 'e', '+', '-', 'i', 'n', 'f'].contains c) = true) :
    ∀ c ∈ cs, IsNumeric c := by
  intro c hc
  exact .inr (List.contains_iff_mem.1 (List.all_eq_true.1 h c hc))

theorem text_isNumeric {x : Float} (h : x.isNaN = false) : ∀ c ∈ (text x).toList, IsNumeric c := by
  generalize htext : text x = t
  cases htext ▸ displayed_text h with
  | infinite hx =>
    rename_i negative
    cases negative
    · exact isNumeric_letters (by decide)
    · exact isNumeric_letters (by decide)
  | zero hx =>
    intro c hc
    cases List.mem_singleton.1 hc
    exact .inl rfl
  | finite hx hm hq hs ht =>
    rw [ht]
    exact hs.signed_isNumeric _

theorem text_ne_empty {x : Float} (h : x.isNaN = false) : text x ≠ "" := by
  intro hempty
  obtain ⟨y, hy, -⟩ := read?_text h
  rw [hempty] at hy
  cases hy

end Lisplet.Number
