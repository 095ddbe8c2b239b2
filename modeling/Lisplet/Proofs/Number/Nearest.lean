import Lisplet.Number.Shortest
import Lisplet.Proofs.Number.Bits

/-! The nearest double of a quotient. Each finite double is the answer on an interval around it,
`Reads`: half a unit to either side, a quarter below a power of two, and the ends only for an even
mantissa. The grid that `nearestBits` rounds on is the grid of the double, except just below a power
of two, where it is the finer one and rounding carries over. -/

namespace Lisplet.Number

/-- The rounded quotient is the one natural within a half, and at a half the even one. -/
theorem roundDiv_eq {n d k : Nat} (hd : 0 < d) (hlow : 2 * (k * d) ≤ 2 * n + d)
    (hhigh : 2 * n ≤ 2 * (k * d) + d)
    (hodd : k % 2 = 1 → 2 * (k * d) < 2 * n + d ∧ 2 * n < 2 * (k * d) + d) :
    roundDiv n d = k := by
  have hn := Nat.div_add_mod' n d
  have hr := Nat.mod_lt n hd
  unfold roundDiv
  simp only
  generalize n / d = q at hn ⊢
  generalize n % d = r at hn hr ⊢
  have hle : k ≤ q + 1 := by
    by_contra hlt
    have := Nat.mul_le_mul_right d (show q + 2 ≤ k by omega)
    rw [Nat.add_mul] at this
    omega
  have hge : q ≤ k := by
    by_contra hlt
    have := Nat.mul_le_mul_right d (show k + 1 ≤ q by omega)
    rw [Nat.add_mul] at this
    omega
  obtain rfl | rfl : k = q ∨ k = q + 1 := by omega
  · split
    · rfl
    · split <;> omega
  · rw [Nat.add_mul] at hlow hhigh hodd
    split
    · omega
    · split <;> omega

/-- A power with an integer exponent as a quotient of powers with natural ones. -/
theorem pow_toNat_div (b : ℚ) (e : Int) : b ^ e.toNat / b ^ (-e).toNat = b ^ e := by
  rcases le_total 0 e with h | h
  · rw [Int.toNat_of_nonpos (show -e ≤ 0 by omega), pow_zero, div_one, ← zpow_natCast,
      Int.toNat_of_nonneg h]
  · rw [Int.toNat_of_nonpos h, pow_zero, ← zpow_natCast, Int.toNat_of_nonneg (by omega), one_div,
      zpow_neg, inv_inv]

/-- A number scaled by a power, as a quotient of naturals. -/
theorem scaled_div (n b : Nat) (e : Int) :
    ((n * b ^ e.toNat : Nat) : ℚ) / (b ^ (-e).toNat : Nat) = n * (b : ℚ) ^ e := by
  rw [← pow_toNat_div (b : ℚ) e, ← mul_div_assoc, Nat.cast_mul, Nat.cast_pow, Nat.cast_pow]

theorem inUnits_pos {num den : Nat} (hden : 0 < den) (e : Int) : 0 < (inUnits num den e).2 :=
  Nat.mul_pos hden (Nat.two_pow_pos _)

theorem inUnits_div (num den : Nat) (e : Int) :
    ((inUnits num den e).1 : ℚ) / (inUnits num den e).2 = num / den / 2 ^ e := by
  have h := pow_toNat_div 2 (-e)
  rw [neg_neg, zpow_neg] at h
  simp only [inUnits, pow2_eq, Nat.cast_mul, Nat.cast_pow, Nat.cast_ofNat]
  rw [mul_div_mul_comm, h, div_eq_mul_inv _ ((2 : ℚ) ^ e)]

/-- The whole part of a quotient in units, compared with a power of two. -/
theorem inUnits_lt_iff {num den : Nat} (hden : 0 < den) (e : Int) (k : Nat) :
    (inUnits num den e).1 / (inUnits num den e).2 < k ↔ (num : ℚ) / den < k * 2 ^ e := by
  have hpos : 0 < (inUnits num den e).2 := inUnits_pos hden e
  rw [Nat.div_lt_iff_lt_mul hpos, ← div_lt_iff₀ (by positivity), ← inUnits_div,
    div_lt_iff₀ (by exact_mod_cast hpos)]
  exact_mod_cast Iff.rfl

theorem log2_bounds {num den : Nat} (hnum : 0 < num) (hden : 0 < den) :
    (2 : ℚ) ^ ((num.log2 : Int) - den.log2 - 1) ≤ num / den ∧
      (num : ℚ) / den < 2 ^ ((num.log2 : Int) - den.log2 + 1) := by
  have hden' : (0 : ℚ) < den := by exact_mod_cast hden
  have hn : (2 : ℚ) ^ num.log2 ≤ num := by exact_mod_cast Nat.log2_self_le hnum.ne'
  have hn' : (num : ℚ) < 2 ^ (num.log2 + 1) := by exact_mod_cast Nat.lt_log2_self
  have hd : (2 : ℚ) ^ den.log2 ≤ den := by exact_mod_cast Nat.log2_self_le hden.ne'
  have hd' : (den : ℚ) < 2 ^ (den.log2 + 1) := by exact_mod_cast Nat.lt_log2_self
  constructor
  · rw [le_div_iff₀ hden', show (num.log2 : Int) - den.log2 - 1 = num.log2 - (den.log2 + 1 : Nat) by
      push_cast; ring, zpow_sub₀ two_ne_zero, zpow_natCast, zpow_natCast, div_mul_eq_mul_div,
      div_le_iff₀ (by positivity)]
    exact mul_le_mul hn hd'.le hden'.le (by positivity)
  · rw [div_lt_iff₀ hden', show (num.log2 : Int) - den.log2 + 1 = (num.log2 + 1 : Nat) - den.log2 by
      push_cast; ring, zpow_sub₀ two_ne_zero, zpow_natCast, zpow_natCast, div_mul_eq_mul_div,
      lt_div_iff₀ (by positivity)]
    exact mul_lt_mul hn' hd (by positivity) (by positivity)

theorem two_mul_zpow (e : Int) : 2 * (2 : ℚ) ^ e = 2 ^ (e + 1) := by
  rw [zpow_add_one₀ two_ne_zero, mul_comm]

theorem two_mul_zpow_le {e e' : Int} (h : e < e') : 2 * (2 : ℚ) ^ e ≤ 2 ^ e' := by
  rw [two_mul_zpow]
  exact zpow_le_zpow_right₀ one_le_two (by omega)

/-- The grid of a quotient: coarse enough for 53 bits, and no coarser unless it is the finest. -/
theorem gridExponent_spec {num den : Nat} (hnum : 0 < num) (hden : 0 < den) :
    leastExponent ≤ gridExponent num den ∧
      (num : ℚ) / den < 2 ^ 53 * 2 ^ gridExponent num den ∧
      (gridExponent num den = leastExponent ∨
        2 ^ 52 * 2 ^ gridExponent num den ≤ (num : ℚ) / den) := by
  obtain ⟨hlow, hhigh⟩ := log2_bounds hnum hden
  generalize hl : (num.log2 : Int) - den.log2 - 53 = l
  rw [show (num.log2 : Int) - den.log2 - 1 = (52 : Nat) + l by push_cast; omega,
    zpow_add₀ two_ne_zero, zpow_natCast] at hlow
  rw [show (num.log2 : Int) - den.log2 + 1 = (54 : Nat) + l by push_cast; omega,
    zpow_add₀ two_ne_zero, zpow_natCast] at hhigh
  have hguess := @inUnits_lt_iff num den hden (max leastExponent l) (pow2 53)
  rw [pow2_eq, Nat.cast_pow, Nat.cast_ofNat] at hguess
  unfold gridExponent
  simp only [hl, pow2_eq]
  generalize hg : max leastExponent l = guess at hguess ⊢
  have hl' : (2 : ℚ) ^ l ≤ 2 ^ guess := zpow_le_zpow_right₀ one_le_two (by omega)
  split
  · rename_i hlt
    refine ⟨by omega, hguess.1 hlt, ?_⟩
    obtain h | h : guess = leastExponent ∨ guess = l := by omega
    · exact .inl h
    · exact .inr (h ▸ hlow)
  · rename_i hge
    rw [hguess, not_lt] at hge
    rw [← two_mul_zpow]
    exact ⟨by omega, by linarith, .inr (by linarith)⟩

/-- The numbers that read as `m * 2 ^ e`. The ends of the interval belong to it for an even
mantissa only. -/
structure Reads (m : Nat) (e : Int) (q : ℚ) : Prop where
  low : ((readingBounds m e).1 : ℚ) * 2 ^ (e - 2) ≤ q
  high : q ≤ ((readingBounds m e).2 : ℚ) * 2 ^ (e - 2)
  odd : m % 2 = 1 → ((readingBounds m e).1 : ℚ) * 2 ^ (e - 2) < q ∧
    q < ((readingBounds m e).2 : ℚ) * 2 ^ (e - 2)

theorem zpow_sub_two (e : Int) : (2 : ℚ) ^ (e - 2) = 2 ^ e / 4 := by
  rw [zpow_sub₀ two_ne_zero]
  norm_num

theorem readingBounds_snd (m : Nat) (e : Int) :
    ((readingBounds m e).2 : ℚ) * 2 ^ (e - 2) = (m + 1 / 2) * 2 ^ e := by
  rw [zpow_sub_two]
  simp only [readingBounds, Nat.cast_add, Nat.cast_mul, Nat.cast_ofNat]
  ring

/-- Below a power of two the interval is half as wide, except on the finest grid. -/
theorem readingBounds_fst {m : Nat} (hm : 0 < m) (e : Int) :
    ((readingBounds m e).1 : ℚ) * 2 ^ (e - 2) =
      (m - if m = 2 ^ 52 ∧ leastExponent < e then 1 / 4 else 1 / 2) * 2 ^ e := by
  rw [zpow_sub_two]
  simp only [readingBounds, Bool.and_eq_true, decide_eq_true_eq]
  rw [← pow2_eq]
  split
  · rw [Nat.cast_sub (by omega)]
    push_cast
    ring
  · rw [Nat.cast_sub (by omega)]
    push_cast
    ring

section Nearest

variable {m num den : Nat} {e : Int}

theorem le_readingBounds_fst (hm : 0 < m) (e : Int) :
    ((m : ℚ) - 1 / 2) * 2 ^ e ≤ ((readingBounds m e).1 : ℚ) * 2 ^ (e - 2) := by
  rw [readingBounds_fst hm]
  gcongr
  split <;> norm_num

theorem Reads.half_low {q : ℚ} (h : Reads m e q) (hm : 0 < m) :
    ((m : ℚ) - 1 / 2) * 2 ^ e ≤ q :=
  (le_readingBounds_fst hm e).trans h.low

theorem Reads.half_low_odd {q : ℚ} (h : Reads m e q) (hm : 0 < m) (hodd : m % 2 = 1) :
    ((m : ℚ) - 1 / 2) * 2 ^ e < q :=
  (le_readingBounds_fst hm e).trans_lt (h.odd hodd).1

theorem Reads.half_high {q : ℚ} (h : Reads m e q) : q ≤ ((m : ℚ) + 1 / 2) * 2 ^ e :=
  h.high.trans_eq (readingBounds_snd m e)

theorem Reads.half_high_odd {q : ℚ} (h : Reads m e q) (hodd : m % 2 = 1) :
    q < ((m : ℚ) + 1 / 2) * 2 ^ e :=
  (h.odd hodd).2.trans_eq (readingBounds_snd m e)

theorem roundDiv_inUnits {k : Nat} (hden : 0 < den)
    (hlow : ((k : ℚ) - 1 / 2) * 2 ^ e ≤ num / den) (hhigh : (num : ℚ) / den ≤ (k + 1 / 2) * 2 ^ e)
    (hodd : k % 2 = 1 →
      ((k : ℚ) - 1 / 2) * 2 ^ e < num / den ∧ (num : ℚ) / den < (k + 1 / 2) * 2 ^ e) :
    roundDiv (inUnits num den e).1 (inUnits num den e).2 = k := by
  have hpos : 0 < (inUnits num den e).2 := inUnits_pos hden e
  have hu : (0 : ℚ) < 2 ^ e := by positivity
  have hd : (0 : ℚ) < (inUnits num den e).2 := by exact_mod_cast hpos
  rw [← div_le_iff₀ hu, ← inUnits_div, div_le_iff₀ hd] at hhigh
  rw [← le_div_iff₀ hu, ← inUnits_div, le_div_iff₀ hd] at hlow
  rw [← div_lt_iff₀ hu, ← lt_div_iff₀ hu, ← inUnits_div, div_lt_iff₀ hd, lt_div_iff₀ hd] at hodd
  generalize (inUnits num den e).1 = n at *
  generalize (inUnits num den e).2 = d at *
  refine roundDiv_eq hpos ?_ ?_ fun hk => ⟨?_, ?_⟩
  · have : (2 : ℚ) * (k * d) ≤ 2 * n + d := by linarith
    exact_mod_cast this
  · have : (2 : ℚ) * n ≤ 2 * (k * d) + d := by linarith
    exact_mod_cast this
  · have : (2 : ℚ) * (k * d) < 2 * n + d := by linarith [(hodd hk).1]
    exact_mod_cast this
  · have : (2 : ℚ) * n < 2 * (k * d) + d := by linarith [(hodd hk).2]
    exact_mod_cast this

/-- Just below a power of two the finer grid rounds up to it. -/
theorem roundDiv_carry (hden : 0 < den) (hlow : ((2 : ℚ) ^ 52 - 1 / 4) * 2 ^ e ≤ num / den)
    (hhigh : (num : ℚ) / den < 2 ^ 52 * 2 ^ e) :
    roundDiv (inUnits num den (e - 1)).1 (inUnits num den (e - 1)).2 = 2 ^ 53 := by
  have hpos : (0 : ℚ) < 2 ^ (e - 1) := by positivity
  have hstep := two_mul_zpow (e - 1)
  rw [Int.sub_add_cancel] at hstep
  refine roundDiv_inUnits hden ?_ ?_ (by norm_num)
  · push_cast
    linarith
  · push_cast
    linarith

theorem Reads.pos {q : ℚ} (h : Reads m e q) (hm : 0 < m) : 0 < q := by
  have hm' : (1 : ℚ) ≤ m := by exact_mod_cast hm
  refine lt_of_lt_of_le ?_ (h.half_low hm)
  exact mul_pos (by linarith) (by positivity)

/-- A number that reads as `m * 2 ^ e` is on the grid of `2 ^ e`, or just below a power of two. -/
theorem Reads.gridExponent (h : Reads m e (num / den)) (hc : Canonical m e) (hm : 0 < m)
    (hnum : 0 < num) (hden : 0 < den) :
    gridExponent num den = e ∨ gridExponent num den + 1 = e ∧ m = 2 ^ 52 ∧
      ((2 : ℚ) ^ 52 - 1 / 4) * 2 ^ e ≤ num / den ∧ (num : ℚ) / den < 2 ^ 52 * 2 ^ e := by
  obtain ⟨hleast, hlt, hge⟩ := gridExponent_spec hnum hden
  generalize Number.gridExponent num den = g at *
  have hu : (0 : ℚ) < 2 ^ e := by positivity
  have hlow := h.half_low hm
  -- a coarser grid would need a bit more than the mantissa has
  have hle : g ≤ e := by
    by_contra hgt
    have hcoarse := hge.resolve_left (by have := hc.least; omega)
    have hstep := two_mul_zpow_le (show e < g by omega)
    have hmlt : (m : ℚ) + 1 ≤ 2 ^ 53 := by exact_mod_cast hc.lt
    have := h.half_high
    nlinarith
  rcases hle.eq_or_lt with rfl | hg
  · exact .inl rfl
  have hstep := two_mul_zpow_le hg
  have hm' : m = 2 ^ 52 := by
    by_contra hne
    have hm52 := hc.leading.resolve_left (by omega)
    have : (2 : ℚ) ^ 52 + 1 ≤ m := by exact_mod_cast (show 2 ^ 52 + 1 ≤ m by omega)
    nlinarith
  have hlow' : ((2 : ℚ) ^ 52 - 1 / 4) * 2 ^ e ≤ num / den := by
    have := h.low
    rw [readingBounds_fst hm, if_pos ⟨hm', by omega⟩, hm'] at this
    exact_mod_cast this
  refine .inr ⟨?_, hm', hlow', by linarith⟩
  by_contra hne
  have hstep' := two_mul_zpow_le (show g < e - 1 by omega)
  have := two_mul_zpow_le (show e - 1 < e by omega)
  linarith

/-- Whatever reads as a double has the bits of that double for its nearest. -/
theorem Reads.nearestBits_eq (h : Reads m e (num / den)) (hc : Canonical m e) (hm : 0 < m)
    (hden : 0 < den) :
    nearestBits num den = (e - leastExponent).toNat * pow2 52 + m := by
  have hq := h.pos hm
  have hnum : 0 < num := Nat.pos_of_ne_zero fun h0 => by simp [h0] at hq
  have hbits := hc.bits_le
  unfold nearestBits
  rw [if_neg hnum.ne']
  simp only
  rcases h.gridExponent hc hm hnum hden with hg | ⟨hg, hm', hlow, hhigh⟩
  · rw [hg, roundDiv_inUnits hden (h.half_low hm) h.half_high fun hodd =>
      ⟨h.half_low_odd hm hodd, h.half_high_odd hodd⟩, Nat.min_eq_left hbits]
  · -- rounding carries into the next power of two, and so does its bit pattern
    have hcarry := roundDiv_carry hden hlow hhigh
    have hsum : (e - 1 - leastExponent).toNat * pow2 52 + 2 ^ 53 =
        (e - leastExponent).toNat * pow2 52 + m := by
      have := (gridExponent_spec hnum hden).1
      rw [hm', pow2_eq, show (e - leastExponent).toNat = (e - 1 - leastExponent).toNat + 1 by omega]
      omega
    rw [show Number.gridExponent num den = e - 1 by omega, hcarry, hsum, Nat.min_eq_left hbits]

end Nearest

end Lisplet.Number
