import CssExtract.Number.Render
import Mathlib.Tactic.SplitIfs

namespace CssExtract

namespace Dyadic

variable {x : Dyadic} {n : Int}

theorem fraction_lt (bits : UInt64) : (bits &&& 0xFFFFFFFFFFFFF).toNat < 0x10000000000000 := by
  rw [UInt64.toNat_and]
  exact Nat.lt_succ_of_le Nat.and_le_right

theorem ofBits_m_lt (bits : UInt64) : (ofBits bits).m < 0x20000000000000 := by
  have hf := fraction_lt bits
  have hp : powerOf 2 52 = 0x10000000000000 := rfl
  simp only [ofBits]
  split_ifs
  · simp only
    omega
  · simp only [hp]
    omega

theorem ofBits_q_le {bits : UInt64} (h : ((bits >>> 52) &&& 0x7FF).toNat < 2047) :
    (ofBits bits).q ≤ 971 := by
  simp only [ofBits]
  split_ifs
  · simp
  · simp only
    omega

theorem powerOf_two_le {i j : Int} (h : i ≤ j) : powerOf 2 i ≤ powerOf 2 j :=
  Nat.pow_le_pow_right (by decide) (Int.toNat_le_toNat h)

theorem toInt?_natAbs_le (h : x.toInt? = some n) : n.natAbs ≤ x.m * powerOf 2 x.q := by
  have hsign (k : Nat) : ((if x.negative then (-1 : Int) else 1) * (k : Int)).natAbs = k := by
    split_ifs <;> simp
  simp only [toInt?] at h
  split at h
  · obtain rfl := Option.some.inj h
    exact Nat.le_of_eq (hsign _)
  · split at h
    · obtain rfl := Option.some.inj h
      rw [hsign]
      have hpos : 0 < powerOf 2 x.q := Nat.pow_pos (by decide)
      exact Nat.le_trans (Nat.div_le_self _ _) (Nat.le_mul_of_pos_right _ hpos)
    · simp at h

end Dyadic

namespace Number

open Float.Model UnpackedFloat in
theorem isNaN_or_isInf_unpack {bits : BitVec Format.binary64.numBits}
    (h : unpackExponent bits = -1#_) :
    (unpack Format.binary64 bits).isNaN = true ∨ (unpack Format.binary64 bits).isInf = true := by
  by_cases hmantissa : unpackMantissa bits = 0#_
  · have hunpack : unpack Format.binary64 bits = .infinity (Sign.ofBitVec (unpackSign bits)) :=
      (if_pos h).trans (if_pos hmantissa)
    exact .inr (by rw [hunpack]; rfl)
  · have hunpack : unpack Format.binary64 bits = .notANumber := (if_pos h).trans (if_neg hmantissa)
    exact .inl (by rw [hunpack]; rfl)

open Float.Model in
theorem exponent_lt_of_finite {x : Float} (hnan : x.isNaN = false) (hinf : x.isInf = false) :
    ((x.toBits >>> 52) &&& 0x7FF).toNat < 2047 := by
  let bits : BitVec Format.binary64.numBits := x.toBits.toBitVec
  have hexponent : ((x.toBits >>> 52) &&& 0x7FF).toNat = (UnpackedFloat.unpackExponent bits).toNat := by
    simp [UnpackedFloat.unpackExponent, bits]
    exact Nat.and_two_pow_sub_one_eq_mod _ 11
  have hne : UnpackedFloat.unpackExponent bits ≠ -1#_ := by
    intro h
    have hunpack : x.toModel.unpack = UnpackedFloat.unpack Format.binary64 bits := rfl
    simp only [Float.isNaN, Float.Model.isNaN, hunpack] at hnan
    simp only [Float.isInf, Float.Model.isInf, hunpack] at hinf
    rcases isNaN_or_isInf_unpack h with h | h
    · simp [h] at hnan
    · simp [h] at hinf
  have hlt : (UnpackedFloat.unpackExponent bits).toNat < 2048 := BitVec.isLt _
  have hne' : (UnpackedFloat.unpackExponent bits).toNat ≠ 2047 := by
    intro h
    exact hne (BitVec.eq_of_toNat_eq h)
  rw [hexponent]
  omega

theorem natAbs_integral?_lt {x : Float} {n : Int} (h : integral? x = some n) :
    n.natAbs < floatBound := by
  simp only [integral?] at h
  split_ifs at h with hx
  simp only [Bool.or_eq_true, not_or, Bool.not_eq_true] at hx
  have hm := Dyadic.ofBits_m_lt x.toBits
  have hq := Dyadic.ofBits_q_le (exponent_lt_of_finite hx.1 hx.2)
  have hpow := Dyadic.powerOf_two_le hq
  calc n.natAbs ≤ (Dyadic.ofBits x.toBits).m * powerOf 2 (Dyadic.ofBits x.toBits).q :=
        Dyadic.toInt?_natAbs_le h
    _ ≤ (2 ^ 53 - 1) * powerOf 2 971 := Nat.mul_le_mul (by omega) hpow
    _ < floatBound := by decide +kernel

end Number

end CssExtract
