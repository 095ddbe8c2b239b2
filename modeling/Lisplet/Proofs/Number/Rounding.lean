import Lisplet.Proofs.Number.Bits

/-! Products that need no rounding. Rounding drops the low bits of a mantissa that has too many of
them, and where these are all zero nothing is lost. So a double that is written with a finer grid
than its own is rounded to itself, and one is neutral for multiplication. -/

namespace Lisplet.Number

open Float.Model (Format totalExponent)
open Float.Model.UnpackedFloat

/-- The zero bits at the end of an exact mantissa can be shifted out. -/
theorem shiftRight_exact (m k : Nat) :
    (⟨m * 2 ^ k, false, false⟩ : ExtendedMantissa) >>> k = ⟨m, false, false⟩ := by
  change k.repeat ExtendedMantissa.shiftRightOne _ = _
  induction k generalizing m with
  | zero => simp [Nat.repeat]
  | succ k ih =>
    rw [Nat.repeat, Nat.pow_succ', ← Nat.mul_assoc, ih (m * 2)]
    simp [ExtendedMantissa.shiftRightOne]

theorem log2_mul_two_pow {m : Nat} (hm : 0 < m) (k : Nat) : (m * 2 ^ k).log2 = m.log2 + k := by
  obtain ⟨hle, hlt⟩ := (Nat.log2_eq_iff hm.ne').1 rfl
  refine (Nat.log2_eq_iff (Nat.mul_pos hm (Nat.two_pow_pos k)).ne').2 ⟨?_, ?_⟩
  · rw [Nat.pow_add]
    exact Nat.mul_le_mul_right _ hle
  · rw [Nat.add_right_comm, Nat.pow_add]
    exact Nat.mul_lt_mul_of_pos_right hlt (Nat.two_pow_pos k)

/-- A mantissa on a finer grid than its own is brought back to it. -/
theorem shiftToTargetExponent_exact {m : Nat} {e : Int} (hm : 0 < m)
    (he : Format.binary64.targetExponent (totalExponent m e) = e) (k : Nat) :
    shiftToTargetExponent Format.binary64 (m * 2 ^ k) (e - k) .exact = (⟨m, false, false⟩, e) := by
  have htotal : totalExponent (m * 2 ^ k) (e - k) = totalExponent m e := by
    rw [totalExponent, totalExponent, log2_mul_two_pow hm]
    omega
  have hshift : (e - (e - k)).toNat = k := by omega
  rw [shiftToTargetExponent, htotal, he, shiftToExponent]
  simp only [hshift, ExtendedMantissa.ofMantissaAndAccuracy, shiftRight_exact]
  rw [Int.sub_add_cancel]

/-- Nothing is lost in rounding a number that has 53 significant bits, or is on the finest grid. -/
theorem roundWithAccuracy_exact (s : Sign) {m : Nat} {e : Int} (hm : 0 < m)
    (he : Format.binary64.targetExponent (totalExponent m e) = e) (k : Nat) :
    roundWithAccuracy Format.binary64 s (m * 2 ^ k) (e - k) .exact = .finite s m e hm := by
  -- the rounded mantissa is shifted once more in case it has carried over, which it has not
  have hagain := shiftToTargetExponent_exact hm he 0
  rw [Nat.pow_zero, Nat.mul_one, Int.ofNat_zero, Int.sub_zero] at hagain
  have hrounded : (⟨m, false, false⟩ : ExtendedMantissa).roundedMantissa = m := rfl
  rw [roundWithAccuracy, shiftToTargetExponent_exact hm he]
  simp only [hrounded, hagain]
  rw [dif_neg hm.ne']

theorem Canonical.targetExponent_eq {m : Nat} {e : Int} (h : Canonical m e) (hm : 0 < m) :
    Format.binary64.targetExponent (totalExponent m e) = e := by
  have hleast : leastExponent = -1074 := rfl
  obtain ⟨hle, -, hlt, hleading⟩ := h
  have hlog : m.log2 < 53 := (Nat.log2_lt hm.ne').2 hlt
  have hlog' : 2 ^ 52 ≤ m → 52 ≤ m.log2 := (Nat.le_log2 hm.ne').2
  rw [Format.targetExponent, totalExponent, show Format.binary64.mantissaBits = 53 from rfl,
    show Format.binary64.minExponent = -1074 from rfl]
  omega

/-- A finite double is made of a canonical mantissa and exponent. -/
theorem canonical_of_unpack {b : BitVec 64} {s : Sign} {m : Nat} {e : Int} {hm : 0 < m}
    (h : unpack Format.binary64 b = .finite s m e hm) : Canonical m e := by
  have hfraction : (@unpackMantissa Format.binary64 b).toNat < 2 ^ 52 := BitVec.isLt _
  have hbiased : (@unpackExponent Format.binary64 b).toNat < 2 ^ 11 := BitVec.isLt _
  have hbias : Format.binary64.exponentBias = 1023 := rfl
  have hleast : leastExponent = -1074 := rfl
  unfold unpack at h
  simp only at h
  split at h
  · split at h <;> cases h
  · rename_i hfin
    split at h
    · rename_i hsub
      split at h
      · cases h
      · cases h
        rw [hsub]
        exact ⟨by decide, by decide, by omega, .inl rfl⟩
    · rename_i hnormal
      have hmost : (@unpackExponent Format.binary64 b).toNat ≠ 2047 := fun h =>
        hfin (BitVec.eq_of_toNat_eq h)
      have hpos : (@unpackExponent Format.binary64 b).toNat ≠ 0 := fun h =>
        hnormal (BitVec.eq_of_toNat_eq h)
      cases h
      rw [toNat_one_append, hbias]
      exact ⟨by omega, by omega, by omega, .inr (by omega)⟩

theorem positive_mul (s : Sign) : Sign.positive * s = s := by
  cases s <;> rfl

theorem unpack_one : (1.0 : Float).toModel.unpack =
    .finite .positive (2 ^ 52) (-52) (by decide) := rfl

/-- One is neutral, for all doubles. -/
theorem one_mul_eq_self (x : Float) : 1.0 * x = x := by
  have hproduct : mul Format.binary64 (1.0 : Float).toModel.unpack x.toModel.unpack =
      x.toModel.unpack := by
    rw [unpack_one]
    cases hx : x.toModel.unpack with
    | notANumber => rfl
    | infinity s => rw [mul, positive_mul]
    | zero s => rw [mul, positive_mul]
    | finite s m e hm =>
      have he := (canonical_of_unpack hx).targetExponent_eq hm
      rw [mul, positive_mul, Nat.mul_comm, Int.add_comm]
      exact roundWithAccuracy_exact s hm he 52
  calc 1.0 * x
    _ = .ofModel (.pack (mul Format.binary64 (1.0 : Float).toModel.unpack x.toModel.unpack)) := rfl
    _ = .ofModel (.pack x.toModel.unpack) := by rw [hproduct]
    _ = x := ofBits_toBits x

end Lisplet.Number
