import Mathlib
import Lisplet.Number.Binary

/-! Doubles and their bit patterns. A double is a sign bit, eleven bits of exponent and fifty-two of
fraction; the pattern gives the double back, and so do the sign, mantissa and exponent that `parts`
reads off it. A double that is a number equals itself. -/

namespace Lisplet.Number

open Float.Model (Format)
open Float.Model.UnpackedFloat

theorem pow2_eq (n : Nat) : pow2 n = 2 ^ n := rfl

theorem toNat_packComponents (s : Sign) (e : BitVec 11) (m : BitVec 52) :
    (packComponents Format.binary64 s e m).toNat =
      s.toBitVec.toNat * 2 ^ 63 + e.toNat * 2 ^ 52 + m.toNat := by
  rw [packComponents, BitVec.toNat_append, BitVec.toNat_append,
    ← Nat.shiftLeft_add_eq_or_of_lt m.isLt, ← Nat.shiftLeft_add_eq_or_of_lt e.isLt]
  simp only [Nat.shiftLeft_eq]
  ring

theorem toNat_unpackMantissa (b : BitVec 64) :
    (@unpackMantissa Format.binary64 b).toNat = b.toNat % 2 ^ 52 := by
  rw [unpackMantissa, BitVec.toNat_cast, BitVec.extractLsb_toNat]
  rfl

theorem toNat_unpackExponent (b : BitVec 64) :
    (@unpackExponent Format.binary64 b).toNat = b.toNat / 2 ^ 52 % 2 ^ 11 := by
  rw [unpackExponent, BitVec.toNat_cast, BitVec.extractLsb_toNat, Nat.shiftRight_eq_div_pow]
  rfl

theorem toNat_unpackSign (b : BitVec 64) :
    (@unpackSign Format.binary64 b).toNat = b.toNat / 2 ^ 63 % 2 ^ 1 := by
  rw [unpackSign, BitVec.toNat_cast, BitVec.extractLsb_toNat, Nat.shiftRight_eq_div_pow]
  rfl

theorem toBitVec_ofBitVec (v : BitVec 1) : (Sign.ofBitVec v).toBitVec = v := by
  revert v
  decide

theorem packComponents_unpack (b : BitVec 64) :
    packComponents Format.binary64 (.ofBitVec (@unpackSign Format.binary64 b))
      (@unpackExponent Format.binary64 b) (@unpackMantissa Format.binary64 b) = b := by
  apply BitVec.eq_of_toNat_eq
  have := b.isLt
  rw [toNat_packComponents, toBitVec_ofBitVec, toNat_unpackSign, toNat_unpackExponent,
    toNat_unpackMantissa]
  omega

theorem pack_subnormal (s : Sign) {m : Nat} (hm : 0 < m) (hlt : m < 2 ^ 52) :
    pack Format.binary64 (.finite s m (-1074) hm) =
      packComponents Format.binary64 s 0 (BitVec.ofNat 52 m) := by
  have hlog : m.log2 < 52 := (Nat.log2_lt hm.ne').2 hlt
  unfold pack
  simp only
  rw [if_neg (by decide), if_neg]
  · rfl
  · rw [show Format.binary64.mantissaBits = 53 from rfl]
    omega

theorem pack_normal (s : Sign) {m e : Nat} (hm : 0 < m) (hle : 2 ^ 52 ≤ m) (hlt : m < 2 ^ 53)
    (he : e < 2047) :
    pack Format.binary64 (.finite s m (e - 1075) hm) =
      packComponents Format.binary64 s (BitVec.ofNat 11 e) (BitVec.ofNat 52 m) := by
  have hlog : m.log2 = 52 := (Nat.log2_eq_iff hm.ne').2 ⟨hle, hlt⟩
  have hbias : ((e : Int) - 1075 + Format.binary64.exponentBias +
      Format.binary64.mantissaBitsWithoutImplicit).toNat = e := by
    rw [show Format.binary64.exponentBias = 1023 from rfl,
      show Format.binary64.mantissaBitsWithoutImplicit = 52 from rfl]
    omega
  unfold pack
  simp only
  rw [hbias, if_neg, if_pos]
  · rw [hlog]
    rfl
  · omega

/-- The mantissa of a normal number has a leading bit that is not in the pattern. -/
theorem toNat_one_append (m : BitVec 52) : (1#1 ++ m).toNat = 2 ^ 52 + m.toNat := by
  rw [BitVec.toNat_append, ← Nat.shiftLeft_add_eq_or_of_lt m.isLt, Nat.shiftLeft_eq]
  rfl

/-- A valid bit pattern comes back from its fields. -/
theorem pack_unpack {b : BitVec 64} (hb : Format.binary64.Valid b) :
    pack Format.binary64 (unpack Format.binary64 b) = b := by
  have hb' := packComponents_unpack b
  generalize hs : Sign.ofBitVec (@unpackSign Format.binary64 b) = s at hb'
  generalize he : @unpackExponent Format.binary64 b = e at hb'
  generalize hm : @unpackMantissa Format.binary64 b = m at hb'
  unfold unpack
  simp only [hs, he, hm]
  have he' : e.toNat < 2 ^ 11 := BitVec.isLt _
  have hm' : m.toNat < 2 ^ 52 := BitVec.isLt _
  split
  · rename_i hinf
    split
    · rename_i hzero
      rwa [hinf, hzero] at hb'
    · rename_i hnan
      exact (hb.eq_packedNaN (he.trans hinf) (hm ▸ hnan)).symm
  · rename_i hfin
    split
    · rename_i hsub
      split
      · rename_i hzero
        rwa [hsub, hzero] at hb'
      · rename_i hpos
        rw [hsub] at hb' ⊢
        exact (pack_subnormal s _ hm').trans (by rwa [BitVec.ofNat_toNat, BitVec.setWidth_eq])
    · rename_i hnormal
      have hfin' : e.toNat < 2047 := by
        have : e.toNat ≠ 2047 := fun h => hfin (BitVec.eq_of_toNat_eq h)
        omega
      have happ := toNat_one_append m
      refine (pack_normal s _ (by omega) (by omega) hfin').trans ?_
      rw [happ, BitVec.ofNat_toNat, BitVec.setWidth_eq]
      rw [show BitVec.ofNat 52 (2 ^ 52 + m.toNat) = m from
        BitVec.eq_of_toNat_eq (by simpa using hm')]
      exact hb'

/-- A double is known by its bit pattern. -/
theorem ofBits_toBits (x : Float) : Float.ofBits x.toBits = x := by
  obtain ⟨⟨bits, hvalid⟩⟩ := x
  simp only [Float.toBits, Float.ofBits, Float.Model.ofBits, Float.Model.pack,
    pack_unpack hvalid]

/-- The patterns that are not numbers: the highest exponent with a fraction. -/
theorem isNaN_of_fields {x : Float} (he : x.toBits.toNat / 2 ^ 52 % 2 ^ 11 = 2047)
    (hm : x.toBits.toNat % 2 ^ 52 ≠ 0) : x.isNaN = true := by
  have he' : @unpackExponent Format.binary64 x.toBits.toBitVec = -1#11 := by
    apply BitVec.eq_of_toNat_eq
    rw [toNat_unpackExponent, UInt64.toNat_toBitVec, he]
    rfl
  have hm' : @unpackMantissa Format.binary64 x.toBits.toBitVec ≠ 0#52 := by
    intro h
    have h' := congrArg BitVec.toNat h
    rw [toNat_unpackMantissa, UInt64.toNat_toBitVec] at h'
    exact hm h'
  change (unpack Format.binary64 x.toBits.toBitVec).isNaN = true
  unfold unpack
  simp only
  rw [if_pos he', if_neg hm']
  rfl

theorem fields_of_isNaN {x : Float} (h : x.isNaN = true) :
    x.toBits.toNat / 2 ^ 52 % 2 ^ 11 = 2047 ∧ x.toBits.toNat % 2 ^ 52 ≠ 0 := by
  have he := toNat_unpackExponent x.toBits.toBitVec
  have hm := toNat_unpackMantissa x.toBits.toBitVec
  rw [UInt64.toNat_toBitVec] at he hm
  change (unpack Format.binary64 x.toBits.toBitVec).isNaN = true at h
  unfold unpack at h
  simp only at h
  split at h
  · rename_i hinf
    split at h
    · cases h
    · rename_i hfraction
      refine ⟨?_, fun hzero => hfraction (BitVec.eq_of_toNat_eq (hm.trans hzero))⟩
      rw [← he, hinf]
      rfl
  · split at h
    · split at h <;> cases h
    · cases h

theorem compare_self {u : Float.Model.UnpackedFloat} (h : u.isNaN = false) :
    u.compare u = some .eq := by
  cases u with
  | notANumber => cases h
  | infinity s => cases s <;> rfl
  | zero s => rfl
  | finite s m e hm =>
    have : (compare e e).then (compare m m) = .eq := by
      rw [compare_eq_iff_eq.2 rfl, compare_eq_iff_eq.2 rfl]
      rfl
    cases s
    · simp only [Float.Model.UnpackedFloat.compare, this]
      rfl
    · simp only [Float.Model.UnpackedFloat.compare, this]

/-- A double that is a number equals itself. -/
theorem beq_self {x : Float} (h : x.isNaN = false) : (x == x) = true := by
  change (x.toModel.unpack.compare x.toModel.unpack == some .eq) = true
  rw [compare_self h]
  rfl

/-- Mantissa and exponent of a finite double: 53 bits, the leading one set off the finest grid. -/
structure Canonical (m : Nat) (e : Int) : Prop where
  least : leastExponent ≤ e
  most : e ≤ 971
  lt : m < 2 ^ 53
  leading : e = leastExponent ∨ 2 ^ 52 ≤ m

/-- The pattern of a finite double is below that of infinity. -/
theorem Canonical.bits_le {m : Nat} {e : Int} (h : Canonical m e) :
    (e - leastExponent).toNat * pow2 52 + m ≤ infinityBits := by
  have hlt := h.lt
  have hmost := h.most
  have hleast : leastExponent = -1074 := rfl
  have hexp : (e - leastExponent).toNat ≤ 2045 := by omega
  rw [infinityBits, pow2_eq]
  omega

theorem ofMagnitude_fields (x : Float) :
    ofMagnitude (pow2 63 ≤ x.toBits.toNat)
      (x.toBits.toNat / pow2 52 % pow2 11 * pow2 52 + x.toBits.toNat % pow2 52) = x := by
  have hlt := x.toBits.toNat_lt
  rw [ofMagnitude]
  refine Eq.trans (congrArg (fun n => Float.ofBits (UInt64.ofNat n)) ?_)
    ((congrArg Float.ofBits UInt64.ofNat_toNat).trans (ofBits_toBits x))
  by_cases hsign : pow2 63 ≤ x.toBits.toNat
  · rw [if_pos (decide_eq_true hsign)]
    simp only [pow2_eq] at hsign ⊢
    omega
  · rw [if_neg (by rwa [decide_eq_true_eq])]
    simp only [pow2_eq] at hsign ⊢
    omega

/-- A finite double comes back from its sign, its mantissa and its exponent. -/
theorem ofMagnitude_of_parts {x : Float} {negative : Bool} {m : Nat} {e : Int}
    (h : parts x = .finite negative m e) :
    Canonical m e ∧ ofMagnitude negative ((e - leastExponent).toNat * pow2 52 + m) = x := by
  have hx := ofMagnitude_fields x
  have hfraction : x.toBits.toNat % pow2 52 < 2 ^ 52 := Nat.mod_lt _ (by decide)
  have hbiased : x.toBits.toNat / pow2 52 % pow2 11 < 2 ^ 11 := Nat.mod_lt _ (by decide)
  unfold parts at h
  simp only at h
  generalize x.toBits.toNat / pow2 52 % pow2 11 = biased at h hx hbiased
  generalize x.toBits.toNat % pow2 52 = fraction at h hx hfraction
  split at h
  · split at h <;> cases h
  · split at h
    · rename_i hzero
      cases h
      rw [hzero, Nat.zero_mul, Nat.zero_add] at hx
      rw [Int.sub_self, Int.toNat_zero, Nat.zero_mul, Nat.zero_add]
      exact ⟨⟨le_rfl, by decide, by omega, .inl rfl⟩, hx⟩
    · rename_i hfin hpos
      cases h
      have hleast : leastExponent = -1074 := rfl
      have hmagnitude : (leastExponent + biased - 1 - leastExponent).toNat * pow2 52 +
          (pow2 52 + fraction) = biased * pow2 52 + fraction := by
        rw [show (leastExponent + biased - 1 - leastExponent).toNat = biased - 1 by omega, pow2_eq]
        omega
      rw [hmagnitude]
      exact ⟨⟨by omega, by omega, by rw [pow2_eq]; omega, .inr (by rw [pow2_eq]; omega)⟩, hx⟩

theorem infinity_of_parts {x : Float} {negative : Bool} (h : parts x = .infinite negative) :
    infinity negative = x := by
  have hx := ofMagnitude_fields x
  unfold parts at h
  simp only at h
  generalize x.toBits.toNat / pow2 52 % pow2 11 = biased at h hx
  generalize x.toBits.toNat % pow2 52 = fraction at h hx
  split at h
  · rename_i hbiased
    split at h
    · rename_i hfraction
      cases h
      rwa [hbiased, hfraction] at hx
    · cases h
  · split at h <;> cases h

theorem isNaN_of_parts {x : Float} (h : parts x = .nan) : x.isNaN = true := by
  unfold parts at h
  simp only at h
  split at h
  · rename_i hbiased
    split at h
    · cases h
    · rename_i hfraction
      exact isNaN_of_fields hbiased hfraction
  · split at h <;> cases h

theorem parts_of_isNaN {x : Float} (h : x.isNaN = true) : parts x = .nan := by
  obtain ⟨hbiased, hfraction⟩ := fields_of_isNaN h
  rw [← pow2_eq, ← pow2_eq] at hbiased
  rw [← pow2_eq] at hfraction
  unfold parts
  simp only
  rw [if_pos hbiased, if_neg hfraction]

end Lisplet.Number
