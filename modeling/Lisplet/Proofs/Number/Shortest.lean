import Lisplet.Proofs.Number.Nearest

/-! The shortest decimal of a double reads back. Whatever the search finds on a grid lies in the
interval of the double. It finds something, because a grid of seventeen digits is finer than the
doubles: of the two neighbours of a value one is less than half a unit away, and at a power of two
the upper one is. -/

namespace Lisplet.Number

theorem pow10_eq (n : Nat) : pow10 n = 10 ^ n := rfl

/-- The number that a decimal denotes. -/
def Decimal.value (d : Decimal) : ℚ := d.digits * 10 ^ d.scale

/-- A quarter of a unit in the last place, in the common unit of `onGrid?`. -/
def quarter (e s : Int) : Nat := pow2 (e - 2).toNat * pow10 (-s).toNat

/-- The step of the decimal grid, in the common unit of `onGrid?`. -/
def gridStep (e s : Int) : Nat := pow2 (2 - e).toNat * pow10 s.toNat

/-- The common unit, as a fraction of one. -/
def refinement (e s : Int) : ℚ := 2 ^ (2 - e).toNat * 10 ^ (-s).toNat

theorem refinement_pos (e s : Int) : 0 < refinement e s := by
  unfold refinement
  positivity

theorem gridStep_pos (e s : Int) : 0 < gridStep e s :=
  Nat.mul_pos (Nat.two_pow_pos _) (Nat.pow_pos (by decide))

theorem cast_quarter (e s : Int) : (quarter e s : ℚ) = 2 ^ (e - 2) * refinement e s := by
  have h := pow_toNat_div 2 (e - 2)
  rw [show -(e - 2) = 2 - e by ring] at h
  have hpos : (0 : ℚ) < 2 ^ (2 - e).toNat := by positivity
  rw [← h, quarter, refinement, pow2_eq, pow10_eq]
  push_cast
  field_simp

theorem cast_gridStep (e s : Int) : (gridStep e s : ℚ) = 10 ^ s * refinement e s := by
  have h := pow_toNat_div 10 s
  have hpos : (0 : ℚ) < 10 ^ (-s).toNat := by positivity
  rw [← h, gridStep, refinement, pow2_eq, pow10_eq]
  push_cast
  field_simp

/-- Comparisons may be made in the common unit. -/
theorem le_iff_of_cast {a b : Nat} {x y : ℚ} {e s : Int} (ha : (a : ℚ) = x * refinement e s)
    (hb : (b : ℚ) = y * refinement e s) : a ≤ b ↔ x ≤ y := by
  rw [← @Nat.cast_le ℚ, ha, hb, mul_le_mul_iff_left₀ (refinement_pos e s)]

theorem cast_mul_quarter (k : Nat) (e s : Int) :
    ((k * quarter e s : Nat) : ℚ) = k * 2 ^ (e - 2) * refinement e s := by
  rw [Nat.cast_mul, cast_quarter, mul_assoc]

theorem cast_mul_gridStep (n : Nat) (e s : Int) :
    ((n * gridStep e s : Nat) : ℚ) = n * 10 ^ s * refinement e s := by
  rw [Nat.cast_mul, cast_gridStep, mul_assoc]

theorem quarter_le_step (k n : Nat) (e s : Int) :
    k * quarter e s ≤ n * gridStep e s ↔ (k : ℚ) * 2 ^ (e - 2) ≤ n * 10 ^ s :=
  le_iff_of_cast (cast_mul_quarter k e s) (cast_mul_gridStep n e s)

theorem step_le_quarter (k n : Nat) (e s : Int) :
    n * gridStep e s ≤ k * quarter e s ↔ (n : ℚ) * 10 ^ s ≤ k * 2 ^ (e - 2) :=
  le_iff_of_cast (cast_mul_gridStep n e s) (cast_mul_quarter k e s)

/-- The test of `onGrid?` for one multiple of the step. -/
def readsOnGrid (m : Nat) (e s : Int) (n : Nat) : Bool :=
  if m % 2 = 0 then
    (readingBounds m e).1 * quarter e s ≤ n * gridStep e s &&
      n * gridStep e s ≤ (readingBounds m e).2 * quarter e s
  else
    (readingBounds m e).1 * quarter e s < n * gridStep e s &&
      n * gridStep e s < (readingBounds m e).2 * quarter e s

theorem onGrid?_eq (m : Nat) (e s : Int) :
    onGrid? m e s =
      match readsOnGrid m e s (4 * m * quarter e s / gridStep e s),
        readsOnGrid m e s (4 * m * quarter e s / gridStep e s + 1) with
      | true, true => some (roundDiv (4 * m * quarter e s) (gridStep e s))
      | true, false => some (4 * m * quarter e s / gridStep e s)
      | false, true => some (4 * m * quarter e s / gridStep e s + 1)
      | false, false => none := rfl

theorem readsOnGrid_iff (m : Nat) (e s : Int) (n : Nat) :
    readsOnGrid m e s n = true ↔ Reads m e (n * 10 ^ s) := by
  unfold readsOnGrid
  split
  · rename_i heven
    rw [Bool.and_eq_true, decide_eq_true_eq, decide_eq_true_eq, quarter_le_step, step_le_quarter]
    exact ⟨fun h => ⟨h.1, h.2, fun hodd => absurd hodd (by omega)⟩, fun h => ⟨h.low, h.high⟩⟩
  · rename_i hodd
    rw [Bool.and_eq_true, decide_eq_true_eq, decide_eq_true_eq, ← not_le, ← not_le, step_le_quarter,
      quarter_le_step, not_le, not_le]
    exact ⟨fun h => ⟨h.1.le, h.2.le, fun _ => h⟩, fun h => h.odd (by omega)⟩

theorem roundDiv_near (n d : Nat) : roundDiv n d = n / d ∨ roundDiv n d = n / d + 1 := by
  unfold roundDiv
  simp only
  split
  · exact .inl rfl
  · split
    · exact .inr rfl
    · omega

/-- Whatever the search finds on a grid reads back. -/
theorem reads_of_onGrid? {m : Nat} {e s : Int} {n : Nat} (h : onGrid? m e s = some n) :
    Reads m e (n * 10 ^ s) := by
  rw [← readsOnGrid_iff]
  rw [onGrid?_eq] at h
  split at h
  · rename_i hlower hupper
    cases h
    rcases roundDiv_near (4 * m * quarter e s) (gridStep e s) with h | h
    · rw [h, hlower]
    · rw [h, hupper]
  · rename_i hlower _
    cases h
    exact hlower
  · rename_i _ hupper
    cases h
    exact hupper
  · cases h

/-- Strictly inside the interval, and on the wide side of it at a power of two. -/
theorem Reads.of_lt {m : Nat} {e : Int} {q : ℚ} (hm : 0 < m) (hlow : ((m : ℚ) - 1 / 2) * 2 ^ e < q)
    (hhigh : q < ((m : ℚ) + 1 / 2) * 2 ^ e) (hpow : m = 2 ^ 52 → (m : ℚ) * 2 ^ e ≤ q) :
    Reads m e q := by
  have hu : (0 : ℚ) < 2 ^ e := by positivity
  have hlow' : ((readingBounds m e).1 : ℚ) * 2 ^ (e - 2) < q := by
    rw [readingBounds_fst hm]
    split
    · rename_i h
      have := hpow h.1
      linarith
    · exact hlow
  have hhigh' : q < ((readingBounds m e).2 : ℚ) * 2 ^ (e - 2) := by
    rwa [readingBounds_snd]
  exact ⟨hlow'.le, hhigh'.le, fun _ => ⟨hlow', hhigh'⟩⟩

theorem isSome_onGrid? {m : Nat} {e s : Int}
    (h : Reads m e ((4 * m * quarter e s / gridStep e s : Nat) * 10 ^ s) ∨
      Reads m e ((4 * m * quarter e s / gridStep e s + 1 : Nat) * 10 ^ s)) :
    (onGrid? m e s).isSome = true := by
  rw [← readsOnGrid_iff, ← readsOnGrid_iff] at h
  rw [onGrid?_eq]
  split
  · rfl
  · rfl
  · rfl
  · rename_i hlower hupper
    rw [hlower, hupper] at h
    simp at h

/-- The value lies between its two neighbours on a grid. -/
theorem between_neighbours (m : Nat) (e s : Int) :
    ((4 * m * quarter e s / gridStep e s : Nat) : ℚ) * 10 ^ s ≤ m * 2 ^ e ∧
      (m : ℚ) * 2 ^ e < ((4 * m * quarter e s / gridStep e s + 1 : Nat) : ℚ) * 10 ^ s := by
  have hv : ((4 * m : Nat) : ℚ) * 2 ^ (e - 2) = m * 2 ^ e := by
    rw [zpow_sub_two]
    push_cast
    ring
  rw [← hv, ← step_le_quarter, ← not_le, ← step_le_quarter, not_le]
  exact ⟨Nat.div_mul_le_self _ _, Nat.lt_mul_of_div_lt (Nat.lt_succ_self _) (gridStep_pos e s)⟩

/-- On a grid of seventeen digits a neighbour of the value reads back. -/
theorem isSome_onGrid?_of_le {m : Nat} {e s : Int} (hm : 0 < m) (hlt : m < 2 ^ 53)
    (h : 10 ^ 16 * (10 : ℚ) ^ s ≤ m * 2 ^ e) : (onGrid? m e s).isSome = true := by
  obtain ⟨hlower, hupper⟩ := between_neighbours m e s
  apply isSome_onGrid?
  generalize 4 * m * quarter e s / gridStep e s = n at hlower hupper ⊢
  push_cast at hupper ⊢
  have hu : (0 : ℚ) < 2 ^ e := by positivity
  have hmlt : (m : ℚ) < 2 ^ 53 := by exact_mod_cast hlt
  have hstep : (10 : ℚ) ^ s < 2 ^ e := by nlinarith
  by_cases hnear : ((n : ℚ) + 1) * 10 ^ s < (m + 1 / 2) * 2 ^ e
  · exact .inr (.of_lt hm (by linarith) hnear fun _ => hupper.le)
  · refine .inl (.of_lt hm (by linarith) (by linarith) fun hpow => ?_)
    rw [hpow] at h hlower hnear
    push_cast at h hlower hnear
    linarith

theorem pow_length_toDigits_le {n : Nat} (hn : 0 < n) :
    10 ^ ((Nat.toDigits 10 n).length - 1) ≤ n := by
  by_contra hlt
  rcases Nat.eq_zero_or_pos ((Nat.toDigits 10 n).length - 1) with h | h
  · rw [h] at hlt
    omega
  · have := (Nat.length_toDigits_le_iff (by decide) h).2 (by omega : n < 10 ^ _)
    omega

theorem lt_pow_length_toDigits (n : Nat) : n < 10 ^ (Nat.toDigits 10 n).length :=
  (Nat.length_toDigits_le_iff (by decide) Nat.length_toDigits_pos).1 le_rfl

/-- A quotient reaches the place of its leading digit. -/
theorem pow_decimalLength_le {num den : Nat} (hnum : 0 < num) (hden : 0 < den) :
    (10 : ℚ) ^ (decimalLength num den - 1) ≤ num / den := by
  have hnum' : (0 : ℚ) < num := by exact_mod_cast hnum
  have hden' : (0 : ℚ) < den := by exact_mod_cast hden
  unfold decimalLength
  split
  · rename_i hle
    have hpos : 0 < num / den := Nat.div_pos hle hden
    have hlen : 0 < (Nat.toDigits 10 (num / den)).length := Nat.length_toDigits_pos
    calc (10 : ℚ) ^ (((Nat.toDigits 10 (num / den)).length : Int) - 1)
        = (10 ^ ((Nat.toDigits 10 (num / den)).length - 1) : Nat) := by
          rw [show ((Nat.toDigits 10 (num / den)).length : Int) - 1 =
            ((Nat.toDigits 10 (num / den)).length - 1 : Nat) by omega, zpow_natCast]
          norm_cast
      _ ≤ (num / den : Nat) := by exact_mod_cast pow_length_toDigits_le hpos
      _ ≤ num / den := Nat.cast_div_le
  · rename_i hlt
    have hlen := lt_pow_length_toDigits ((den + num - 1) / num - 1)
    generalize (Nat.toDigits 10 ((den + num - 1) / num - 1)).length = k at hlen ⊢
    have hceil : den ≤ num * 10 ^ k := by
      have h1 : (den + num - 1) / num < 10 ^ k + 1 := by omega
      rw [Nat.div_lt_iff_lt_mul hnum, Nat.add_mul, Nat.mul_comm] at h1
      omega
    rw [show (1 : Int) - k - 1 = -(k : Int) by ring, zpow_neg, zpow_natCast, le_div_iff₀ hden',
      inv_mul_le_iff₀ (by positivity), mul_comm]
    exact_mod_cast hceil

theorem value_stripZeros (fuel : Nat) (d : Decimal) : (stripZeros fuel d).value = d.value := by
  induction fuel generalizing d with
  | zero => rfl
  | succ fuel ih =>
    rw [stripZeros]
    split
    · rename_i h
      simp only [Bool.and_eq_true, decide_eq_true_eq] at h
      rw [ih, Decimal.value, Decimal.value]
      have hten : ((d.digits / 10 * 10 : Nat) : ℚ) = d.digits := by
        rw [Nat.div_mul_cancel (Nat.dvd_of_mod_eq_zero h.2)]
      rw [zpow_add_one₀ (by norm_num), ← hten]
      push_cast
      ring
    · rfl

/-- The shortest decimal of a double reads back as the double. -/
theorem reads_shortest {m : Nat} {e : Int} (hc : Canonical m e) (hm : 0 < m) :
    Reads m e (shortest m e).value := by
  have hlen := pow_decimalLength_le (Nat.mul_pos hm (Nat.two_pow_pos e.toNat))
    (Nat.two_pow_pos (-e).toNat)
  rw [scaled_div, Nat.cast_ofNat] at hlen
  unfold shortest
  simp only [value_stripZeros, pow2_eq]
  generalize decimalLength (m * 2 ^ e.toNat) (2 ^ (-e).toNat) = length at hlen ⊢
  cases hfound : (List.range 17).findSome? fun (n : Nat) =>
      (onGrid? m e (length - n - 1)).map fun digits => (⟨digits, length - n - 1⟩ : Decimal) with
  | some d =>
    obtain ⟨n, -, hd⟩ := List.exists_of_findSome?_eq_some hfound
    obtain ⟨digits, hdigits, rfl⟩ := Option.map_eq_some_iff.1 hd
    exact reads_of_onGrid? hdigits
  | none =>
    -- the last grid tried has seventeen digits
    have hnone := List.findSome?_eq_none_iff.1 hfound 16 (by decide)
    have hsome : (onGrid? m e (length - 16 - 1)).isSome = true := by
      apply isSome_onGrid?_of_le hm hc.lt
      rw [show length - 1 = (16 : Nat) + (length - 16 - 1) by push_cast; ring,
        zpow_add₀ (by norm_num), zpow_natCast] at hlen
      exact hlen
    rw [Option.map_eq_none_iff, Nat.cast_ofNat] at hnone
    rw [hnone] at hsome
    cases hsome

end Lisplet.Number
