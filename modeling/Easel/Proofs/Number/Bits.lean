import Easel.Number.Double
import Mathlib

/-!
Doubles and their bit patterns. A pattern that is no number is replaced when a double is made
of it. Every other pattern is kept: it is put together again from its sign, its exponent field
and its fraction. The sign stands for itself, so a double and its opposite differ in one bit.
-/

namespace Easel.Number

open Float.Model Float.Model.UnpackedFloat

theorem toBitVec_ofBitVec (bit : BitVec 1) : (Sign.ofBitVec bit).toBitVec = bit := by
  revert bit
  decide

theorem packComponents_unpack {format : Format} (bits : BitVec format.numBits) :
    packComponents format (Sign.ofBitVec (unpackSign bits)) (unpackExponent bits)
      (unpackMantissa bits) = bits := by
  rw [packComponents, toBitVec_ofBitVec]
  ext i bound
  simp only [unpackSign, unpackExponent, unpackMantissa, BitVec.getElem_append, BitVec.getElem_cast,
    BitVec.extractLsb, BitVec.getElem_extractLsb']
  rw [← BitVec.getLsbD_eq_getElem bound]
  split
  · rw [Nat.zero_add]
  · split
    · next above _ => rw [Nat.add_sub_cancel' (Nat.le_of_not_lt above)]
    · congr 1
      omega

theorem toNat_hidden_append (fraction : BitVec 52) :
    (1#1 ++ fraction).toNat = hiddenBit + fraction.toNat := by
  rw [BitVec.toNat_append, ← Nat.shiftLeft_add_eq_or_of_lt fraction.isLt]
  rfl

theorem ofNat_hiddenBit_add (fraction : BitVec 52) :
    BitVec.ofNat 52 (hiddenBit + fraction.toNat) = fraction := by
  apply BitVec.eq_of_toNat_eq
  rw [BitVec.toNat_ofNat, hiddenBit, Nat.add_mod_left]
  exact Nat.mod_eq_of_lt fraction.isLt

theorem toNat_add_one_lt {exponent : BitVec 11} (partly : exponent ≠ -1#11) :
    exponent.toNat + 1 < 2 ^ 11 := by
  have bound : exponent.toNat < 2 ^ 11 := exponent.isLt
  have different : exponent.toNat ≠ 2 ^ 11 - 1 := by
    intro same
    apply partly
    apply BitVec.eq_of_toNat_eq
    rw [same]
    decide
  omega

theorem log2_hiddenBit_add (fraction : Nat) (bound : fraction < hiddenBit) :
    Nat.log2 (hiddenBit + fraction) = 52 := by
  have positive : hiddenBit + fraction ≠ 0 := by simp [hiddenBit]
  rw [Nat.log2_eq_iff positive]
  simp only [hiddenBit] at *
  omega

theorem pack_unpack (bits : BitVec Format.binary64.numBits)
    (isNumber : unpackExponent bits = -1#_ → unpackMantissa bits = 0#_) :
    UnpackedFloat.pack Format.binary64 (UnpackedFloat.unpack Format.binary64 bits) = bits := by
  have whole := packComponents_unpack bits
  have bound : (unpackMantissa bits).toNat < hiddenBit := (unpackMantissa bits).isLt
  simp only [UnpackedFloat.unpack]
  split
  · next full =>
      rw [if_pos (isNumber full), UnpackedFloat.pack, packedInfinity]
      rw [full, isNumber full] at whole
      exact whole
  · next partly =>
      have below := toNat_add_one_lt partly
      split
      · next least =>
          rw [least] at whole ⊢
          split
          · next none =>
              rw [none] at whole
              exact whole
          · next subnormal =>
              have small : (unpackMantissa bits).toNat.log2 < 52 := by
                refine (Nat.log2_lt ?_).mpr bound
                intro none
                exact subnormal (BitVec.eq_of_toNat_eq none)
              rw [UnpackedFloat.pack, if_neg (by decide), if_neg (by simp [Format.mantissaBits]; omega)]
              simpa using whole
      · next normal =>
          have biased : ((unpackExponent bits).toNat - (Format.binary64.exponentBias + (52 : Nat)) +
              Format.binary64.exponentBias + (52 : Nat) : Int).toNat = (unpackExponent bits).toNat := by
            omega
          have mantissa := toNat_hidden_append (unpackMantissa bits)
          have order := log2_hiddenBit_add _ bound
          rw [UnpackedFloat.pack]
          simp only [biased, mantissa, order]
          rw [if_neg (by simp; omega), if_pos (by rfl), BitVec.ofNat_toNat, ofNat_hiddenBit_add]
          simpa using whole

theorem toNat_unpackExponent (bits : BitVec Format.binary64.numBits) :
    (unpackExponent bits).toNat = bits.toNat / hiddenBit % 2 ^ 11 := by
  simp [unpackExponent, BitVec.extractLsb, Nat.shiftRight_eq_div_pow, hiddenBit]

theorem toNat_unpackMantissa (bits : BitVec Format.binary64.numBits) :
    (unpackMantissa bits).toNat = bits.toNat % hiddenBit := by
  simp [unpackMantissa, BitVec.extractLsb, hiddenBit]

theorem unpackMantissa_eq_zero {bits : BitVec Format.binary64.numBits}
    (isNumber : bits.toNat ≤ infinityBits) (full : unpackExponent bits = -1#_) :
    unpackMantissa bits = 0#_ := by
  have exponent : 2047 = bits.toNat / hiddenBit % 2 ^ 11 := by
    rw [← toNat_unpackExponent bits, full]
    rfl
  apply BitVec.eq_of_toNat_eq
  rw [toNat_unpackMantissa bits, BitVec.toNat_ofNat, Nat.zero_mod]
  simp only [infinityBits, hiddenBit] at isNumber exponent ⊢
  omega

theorem toNat_toBitVec_ofNat {bits : Nat} (short : bits < 2 ^ 64) :
    (UInt64.ofNat bits).toBitVec.toNat = bits :=
  Nat.mod_eq_of_lt short

theorem magnitude_lt {magnitude : Nat} (isNumber : magnitude ≤ infinityBits) :
    magnitude < signBit := by
  simp only [infinityBits, hiddenBit, signBit] at *
  omega

/-- Patterns up to that of infinity are kept. -/
theorem pack_unpack_magnitude {magnitude : Nat} (isNumber : magnitude ≤ infinityBits) :
    UnpackedFloat.pack Format.binary64
      (UnpackedFloat.unpack Format.binary64 (UInt64.ofNat magnitude).toBitVec) =
        (UInt64.ofNat magnitude).toBitVec := by
  have unsigned := magnitude_lt isNumber
  have same : (UInt64.ofNat magnitude).toBitVec.toNat = magnitude :=
    toNat_toBitVec_ofNat (Nat.lt_trans unsigned (by decide))
  apply pack_unpack
  apply unpackMantissa_eq_zero
  rwa [same]

theorem toBits_ofMagnitude {magnitude : Nat} (isNumber : magnitude ≤ infinityBits) :
    (ofMagnitude false magnitude).toBits.toNat = magnitude := by
  have unsigned := magnitude_lt isNumber
  simp only [ofMagnitude, Float.toBits, Float.ofBits, Float.Model.ofBits, Float.Model.pack]
  change (UnpackedFloat.pack Format.binary64
      (UnpackedFloat.unpack Format.binary64 (UInt64.ofNat magnitude).toBitVec)).toNat = magnitude
  rw [pack_unpack_magnitude isNumber]
  exact toNat_toBitVec_ofNat (Nat.lt_trans unsigned (by decide))

theorem toNat_unpackSign (bits : BitVec Format.binary64.numBits) :
    (unpackSign bits).toNat = bits.toNat / signBit % 2 := by
  simp [unpackSign, BitVec.extractLsb, Nat.shiftRight_eq_div_pow, signBit]

/-- The sign bit stands apart from the exponent field and the fraction. -/
theorem unpack_of_signBit {bits signed : BitVec Format.binary64.numBits}
    (unsigned : bits.toNat < signBit) (same : signed.toNat = signBit + bits.toNat) :
    UnpackedFloat.unpack Format.binary64 signed =
      (UnpackedFloat.unpack Format.binary64 bits).neg := by
  have exponent : unpackExponent signed = unpackExponent bits := by
    apply BitVec.eq_of_toNat_eq
    rw [toNat_unpackExponent, toNat_unpackExponent, same]
    simp only [signBit, hiddenBit]
    omega
  have mantissa : unpackMantissa signed = unpackMantissa bits := by
    apply BitVec.eq_of_toNat_eq
    rw [toNat_unpackMantissa, toNat_unpackMantissa, same]
    simp only [signBit, hiddenBit]
    omega
  have positive : Sign.ofBitVec (unpackSign bits) = .positive := by
    have zero : unpackSign bits = 0#1 := by
      apply BitVec.eq_of_toNat_eq
      rw [toNat_unpackSign, Nat.div_eq_of_lt unsigned]
      rfl
    rw [zero]
    rfl
  have negative : Sign.ofBitVec (unpackSign signed) = .negative := by
    have one : unpackSign signed = 1#1 := by
      apply BitVec.eq_of_toNat_eq
      rw [toNat_unpackSign, same]
      simp only [signBit, BitVec.toNat_ofNat] at unsigned ⊢
      omega
    rw [one]
    rfl
  simp only [UnpackedFloat.unpack, exponent, mantissa, positive, negative]
  split
  · split <;> rfl
  · split
    · split <;> rfl
    · rfl

/-- The opposite of a double has the same pattern below the sign. -/
theorem neg_ofMagnitude {magnitude : Nat} (isNumber : magnitude ≤ infinityBits) :
    -ofMagnitude false magnitude = ofMagnitude true magnitude := by
  have unsigned := magnitude_lt isNumber
  have same : (UInt64.ofNat magnitude).toBitVec.toNat = magnitude :=
    toNat_toBitVec_ofNat (Nat.lt_trans unsigned (by decide))
  have signed : (UInt64.ofNat (signBit + magnitude)).toBitVec.toNat = signBit + magnitude := by
    apply toNat_toBitVec_ofNat
    simp only [signBit] at *
    omega
  have opposite : UnpackedFloat.unpack Format.binary64
      (UInt64.ofNat (signBit + magnitude)).toBitVec =
        (UnpackedFloat.unpack Format.binary64 (UInt64.ofNat magnitude).toBitVec).neg := by
    apply unpack_of_signBit
    · rwa [same]
    · rw [signed, same]
  change Float.ofModel (Float.Model.pack (UnpackedFloat.neg
    (UnpackedFloat.unpack Format.binary64 (UnpackedFloat.pack Format.binary64
      (UnpackedFloat.unpack Format.binary64 (UInt64.ofNat magnitude).toBitVec))))) =
    Float.ofModel (Float.Model.pack (UnpackedFloat.unpack Format.binary64
      (UInt64.ofNat (signBit + magnitude)).toBitVec))
  rw [pack_unpack_magnitude isNumber, opposite]

theorem neg_nearest (numerator denominator : Nat) :
    -nearest false numerator denominator = nearest true numerator denominator := by
  unfold nearest
  split
  · exact neg_ofMagnitude (Nat.zero_le _)
  · exact neg_ofMagnitude (Nat.min_le_right _ _)

theorem parts_infinity : (ofMagnitude false infinityBits).parts = .infinite false := by
  have unsigned : infinityBits < signBit := by decide
  simp only [parts, toBits_ofMagnitude (Nat.le_refl _), Nat.mod_eq_of_lt unsigned, Nat.lt_irrefl,
    if_true, if_false, decide_eq_false (Nat.not_le_of_lt unsigned)]

/-- A finite pattern as a value: `step` counts the powers of two above the least one. -/
theorem parts_ofMagnitude {magnitude : Nat} (isFinite : magnitude < infinityBits) :
    ∃ significand step : Nat,
      (ofMagnitude false magnitude).parts = .finite false significand (leastExponent + step) ∧
        magnitude = step * hiddenBit + significand ∧ significand < 2 * hiddenBit ∧
          (step = 0 ∨ hiddenBit ≤ significand) := by
  have unsigned := magnitude_lt (Nat.le_of_lt isFinite)
  have read : (ofMagnitude false magnitude).parts =
      if magnitude < hiddenBit then .finite false magnitude leastExponent
      else .finite false (hiddenBit + magnitude % hiddenBit)
        (leastExponent + (magnitude / hiddenBit - 1 : Nat)) := by
    simp only [parts, toBits_ofMagnitude (Nat.le_of_lt isFinite), Nat.mod_eq_of_lt unsigned]
    rw [if_neg (Nat.lt_asymm isFinite), if_neg (Nat.ne_of_lt isFinite),
      decide_eq_false (Nat.not_le_of_lt unsigned)]
  by_cases small : magnitude < hiddenBit
  · refine ⟨magnitude, 0, ?_, by omega, by omega, .inl rfl⟩
    rw [read, if_pos small]
    rfl
  · refine ⟨hiddenBit + magnitude % hiddenBit, magnitude / hiddenBit - 1, ?_, ?_, ?_, ?_⟩
    · rw [read, if_neg small]
    · simp only [hiddenBit] at *
      omega
    · simp only [hiddenBit] at *
      omega
    · omega

end Easel.Number
