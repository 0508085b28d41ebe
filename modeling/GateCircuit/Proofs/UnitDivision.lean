/-
# Division and multiplication by one

Division by one leaves every scalar as it is, exact numbers and doubles alike, and so does multiplication.
For doubles this is a fact about rounding. A double unpacks to a sign, a mantissa and an exponent, and the
mantissa of a finite one has as many bits as its exponent allows. The quotient by one has the same mantissa,
or twice the mantissa at an exponent lower by one, and the product with one has the mantissa with 52 zeros
behind it, so rounding finds nothing but zeros to drop. And a double that has been unpacked is packed to the
same bits again.

Key definition: `UnitDivision`. Instances: `ℝ`, `Float`.
Key theorems: `targetExponent_unpack`, `pack_unpack`, `roundWithAccuracy_shifted`, `double_div_one`,
`double_mul_one`.
-/
import Mathlib
import GateCircuit.Proofs.Exact

namespace GateCircuit

/-- Division by one leaves every scalar as it is. -/
class UnitDivision (R : Type) [Scalar R] : Prop where
  div_one : ∀ x : R, x / Scalar.ofNat 1 = x

instance : UnitDivision ℝ where
  div_one x := by
    change x / ((1 : ℕ) : ℝ) = x
    rw [Nat.cast_one, div_one]

section Double

open Float.Model UnpackedFloat

/-! ### The parts of a double -/

theorem targetExponent_binary64 (total : ℤ) :
    Format.binary64.targetExponent total = max (total - 53) (-1074) := rfl

theorem toNat_append_one {n : ℕ} (v : BitVec n) : (1#1 ++ v).toNat = 2 ^ n + v.toNat := by
  rw [BitVec.toNat_append, ← Nat.shiftLeft_add_eq_or_of_lt v.isLt]
  simp [Nat.shiftLeft_eq]

/-- With its leading bit, the mantissa of a normal double has 53 bits. -/
theorem log2_append_one (v : BitVec 52) : (1#1 ++ v).toNat.log2 = 52 := by
  have hv := v.isLt
  rw [toNat_append_one, Nat.log2_eq_iff (by omega)]
  omega

section Bits

variable {b : BitVec Format.binary64.numBits}

theorem packComponents_unpack (b : BitVec Format.binary64.numBits) :
    packComponents Format.binary64 (Sign.ofBitVec (unpackSign b)) (unpackExponent b)
      (unpackMantissa b) = b := by
  have hsign : ∀ v : BitVec 1, (Sign.ofBitVec v).toBitVec = v := by decide
  have hlt : b.toNat < 2 ^ 64 := b.isLt
  rw [packComponents, hsign]
  apply BitVec.eq_of_toNat_eq
  simp only [unpackSign, unpackExponent, unpackMantissa, BitVec.toNat_append, BitVec.toNat_cast,
    BitVec.extractLsb_toNat]
  rw [← Nat.shiftLeft_add_eq_or_of_lt (by omega), ← Nat.shiftLeft_add_eq_or_of_lt (by omega)]
  simp only [Nat.shiftLeft_eq, Nat.shiftRight_eq_div_pow]
  omega

/-- The mantissa of a finite double has as many bits as its exponent allows. -/
theorem targetExponent_unpack {sign : Sign} {m : ℕ} {e : ℤ} {hm : 0 < m}
    (h : UnpackedFloat.unpack Format.binary64 b = .finite sign m e hm) :
    Format.binary64.targetExponent (totalExponent m e) = e := by
  have hmantissa : (unpackMantissa b).toNat < 2 ^ 52 := (unpackMantissa b).isLt
  have hbias : Format.binary64.exponentBias = 1023 := rfl
  rw [targetExponent_binary64, totalExponent]
  rw [UnpackedFloat.unpack] at h
  simp only [hbias] at h
  split at h
  · split at h <;> cases h
  split at h
  · rename_i hzero
    split at h
    · cases h
    · -- a subnormal double has the least exponent
      rw [UnpackedFloat.finite.injEq, hzero] at h
      obtain ⟨-, rfl, rfl⟩ := h
      have hlog := (Nat.log2_lt hm.ne').mpr hmantissa
      simp only [BitVec.toNat_zero]
      omega
  · rename_i hzero
    rw [UnpackedFloat.finite.injEq] at h
    obtain ⟨-, rfl, rfl⟩ := h
    have hexponent : (unpackExponent b).toNat ≠ 0 := fun h0 => hzero (BitVec.eq_of_toNat_eq h0)
    rw [log2_append_one]
    push_cast
    omega

/-- **Packing undoes unpacking**, for all doubles. -/
theorem pack_unpack (hb : Format.binary64.Valid b) :
    UnpackedFloat.pack Format.binary64 (UnpackedFloat.unpack Format.binary64 b) = b := by
  have hparts := packComponents_unpack b
  have hmantissa : (unpackMantissa b).toNat < 2 ^ 52 := (unpackMantissa b).isLt
  have hexponent : (unpackExponent b).toNat < 2 ^ 11 := (unpackExponent b).isLt
  have hbias : Format.binary64.exponentBias = 1023 := rfl
  have hbits : Format.binary64.mantissaBits = 53 := rfl
  rw [UnpackedFloat.unpack]
  simp only
  split
  · rename_i htop
    split
    · rename_i hman
      rwa [htop, hman] at hparts
    · rename_i hman
      exact (hb.eq_packedNaN htop hman).symm
  rename_i htop
  split
  · rename_i hzero
    rw [hzero] at hparts
    split
    · rename_i hman
      rwa [hman] at hparts
    · rename_i hman
      have hpos : (unpackMantissa b).toNat ≠ 0 := fun h0 => hman (BitVec.eq_of_toNat_eq h0)
      have hlog := (Nat.log2_lt hpos).mpr hmantissa
      rw [UnpackedFloat.pack]
      simp only [hzero, hbias, hbits, BitVec.toNat_zero]
      rw [if_neg (by omega), if_neg (by omega), BitVec.ofNat_toNat, BitVec.setWidth_eq]
      exact hparts
  · have hlast : (unpackExponent b).toNat ≠ 2 ^ 11 - 1 := fun h =>
      htop (BitVec.eq_of_toNat_eq h)
    have hbiased : (((unpackExponent b).toNat : ℤ) - ((1023 : ℕ) + (52 : ℕ)) + (1023 : ℕ) +
        (52 : ℕ)).toNat = (unpackExponent b).toNat := by omega
    have hman : BitVec.ofNat 52 (1#1 ++ unpackMantissa b).toNat = unpackMantissa b := by
      apply BitVec.eq_of_toNat_eq
      rw [toNat_append_one, BitVec.toNat_ofNat, Nat.add_mod_left, Nat.mod_eq_of_lt hmantissa]
    rw [UnpackedFloat.pack]
    simp only [hbias, hbits, log2_append_one, if_true]
    rw [hbiased, if_neg (by omega), hman, BitVec.ofNat_toNat, BitVec.setWidth_eq]
    exact hparts

end Bits

/-! ### Rounding what needs no rounding -/

section Rounding

variable {m : ℕ} {e : ℤ}

theorem shiftToTargetExponent_self
    (he : Format.binary64.targetExponent (totalExponent m e) = e) :
    shiftToTargetExponent Format.binary64 m e .exact = (⟨m, false, false⟩, e) := by
  rw [shiftToTargetExponent, he, shiftToExponent, sub_self]
  simp
  rfl

theorem roundWithAccuracy_self (sign : Sign) (hm : 0 < m)
    (he : Format.binary64.targetExponent (totalExponent m e) = e) :
    roundWithAccuracy Format.binary64 sign m e .exact = .finite sign m e hm := by
  have hexact : (⟨m, false, false⟩ : ExtendedMantissa).roundedMantissa = m := rfl
  rw [roundWithAccuracy]
  simp only [shiftToTargetExponent_self he, hexact]
  rw [dif_neg (by omega)]

theorem log2_mul_two_pow (hm : 0 < m) (k : ℕ) : (m * 2 ^ k).log2 = m.log2 + k := by
  induction k with
  | zero => rw [pow_zero, mul_one, add_zero]
  | succ k ih =>
    have hpos : m * 2 ^ k ≠ 0 := by positivity
    rw [pow_succ, ← mul_assoc, mul_comm _ 2, Nat.log2_two_mul hpos, ih, add_assoc]

theorem shiftRight_mul_two_pow (k : ℕ) : ∀ m : ℕ,
    ExtendedMantissa.ofMantissaAndAccuracy (m * 2 ^ k) .exact >>> k = ⟨m, false, false⟩ := by
  induction k with
  | zero =>
    intro m
    rw [pow_zero, mul_one]
    rfl
  | succ k ih =>
    intro m
    have hlast : ExtendedMantissa.ofMantissaAndAccuracy (m * 2 ^ (k + 1)) .exact >>> (k + 1) =
        (ExtendedMantissa.ofMantissaAndAccuracy (2 * m * 2 ^ k) .exact >>> k).shiftRightOne := by
      rw [pow_succ, mul_comm (2 ^ k), ← mul_assoc, mul_comm m]
      rfl
    rw [hlast, ih, ExtendedMantissa.shiftRightOne]
    simp

/-- Rounding drops the zero bits behind a mantissa. -/
theorem roundWithAccuracy_shifted (sign : Sign) (hm : 0 < m)
    (he : Format.binary64.targetExponent (totalExponent m e) = e) (k : ℕ) :
    roundWithAccuracy Format.binary64 sign (m * 2 ^ k) (e - k) .exact = .finite sign m e hm := by
  have htotal : totalExponent (m * 2 ^ k) (e - k) = totalExponent m e := by
    rw [totalExponent, totalExponent, log2_mul_two_pow hm]
    push_cast
    ring
  have hshift : shiftToTargetExponent Format.binary64 (m * 2 ^ k) (e - k) .exact =
      (⟨m, false, false⟩, e) := by
    have hk : (e - (e - k)).toNat = k := by omega
    rw [shiftToTargetExponent, htotal, he, shiftToExponent, hk, shiftRight_mul_two_pow]
    simp
  have hexact : (⟨m, false, false⟩ : ExtendedMantissa).roundedMantissa = m := rfl
  rw [roundWithAccuracy]
  simp only [hshift, hexact, shiftToTargetExponent_self he]
  rw [dif_neg (by omega)]

end Rounding

/-! ### Dividing by one -/

theorem sign_div_positive (sign : Sign) : sign / Sign.positive = sign := by
  cases sign <;> rfl

theorem unpack_double_one :
    (Float.ofNat 1).toModel.unpack = .finite .positive (2 ^ 52) (-52) (by decide) := by
  have hbits : (Float.ofNat 1).toModel.toBits = 0x3FF0000000000000 := by decide +kernel
  rw [Float.Model.unpack, hbits]
  rfl

theorem div_one_finite (sign : Sign) {m : ℕ} {e : ℤ} (hm : 0 < m)
    (he : Format.binary64.targetExponent (totalExponent m e) = e) :
    UnpackedFloat.div Format.binary64 (.finite sign m e hm)
      (.finite .positive (2 ^ 52) (-52) (by decide)) = .finite sign m e hm := by
  have hone : totalExponent (2 ^ 52) (-52) = 1 := by decide
  have htotal : totalExponent m e = m.log2 + 1 + e := rfl
  have hbits := he
  rw [targetExponent_binary64, htotal] at hbits
  rw [UnpackedFloat.div]
  simp only [sign_div_positive, divCore, hone, targetExponent_binary64, htotal]
  by_cases hleast : e = -1074
  · -- at the least exponent the quotient has the mantissa it began with
    have htarget : min (e - -52) (max (m.log2 + 1 + e - 1 - 53) (-1074)) = e := by omega
    have hshift : (e - -52 - e).toNat = 52 := by omega
    rw [htarget, hshift, Nat.shiftLeft_eq, Nat.mul_div_cancel _ (by decide), Nat.mul_mod_left]
    exact roundWithAccuracy_self sign hm he
  · -- otherwise it is computed with one bit more
    have htarget : min (e - -52) (max (m.log2 + 1 + e - 1 - 53) (-1074)) = e - 1 := by omega
    have hshift : (e - -52 - (e - 1)).toNat = 53 := by omega
    have hdouble : m <<< 53 = m * 2 ^ 1 * 2 ^ 52 := by
      rw [Nat.shiftLeft_eq]
      omega
    rw [htarget, hshift, hdouble, Nat.mul_div_cancel _ (by decide), Nat.mul_mod_left]
    exact roundWithAccuracy_shifted sign hm he 1

/-- A double that has been unpacked is packed to itself. -/
theorem model_pack_unpack (x : Float) : Float.Model.pack x.toModel.unpack = x.toModel := by
  rw [Float.Model.pack]
  simp only [Float.Model.unpack, pack_unpack x.toModel.valid]

/-- **Division by one leaves every double as it is**, infinities and what is no number included. -/
theorem double_div_one (x : Float) : x / Float.ofNat 1 = x := by
  have hunpacked : UnpackedFloat.div Format.binary64 x.toModel.unpack
      (Float.ofNat 1).toModel.unpack = x.toModel.unpack := by
    rw [unpack_double_one]
    cases h : x.toModel.unpack with
    | infinity sign => rw [UnpackedFloat.div, sign_div_positive]
    | notANumber => rw [UnpackedFloat.div]
    | zero sign => rw [UnpackedFloat.div, sign_div_positive]
    | finite sign m e hm => exact div_one_finite sign hm (targetExponent_unpack h)
  have hmodel : x.toModel / (Float.ofNat 1).toModel = x.toModel := by
    change Float.Model.pack (UnpackedFloat.div Format.binary64 x.toModel.unpack
      (Float.ofNat 1).toModel.unpack) = x.toModel
    rw [hunpacked, model_pack_unpack]
  exact congrArg Float.ofModel hmodel

instance : UnitDivision Float where
  div_one := double_div_one

/-! ### Multiplying by one -/

theorem sign_mul_positive (sign : Sign) : sign * Sign.positive = sign := by
  cases sign <;> rfl

/-- **Multiplication by one leaves every double as it is**, infinities and what is no number included. -/
theorem double_mul_one (x : Float) : x * Float.ofNat 1 = x := by
  have hunpacked : UnpackedFloat.mul Format.binary64 x.toModel.unpack
      (Float.ofNat 1).toModel.unpack = x.toModel.unpack := by
    rw [unpack_double_one]
    cases h : x.toModel.unpack with
    | infinity sign => rw [UnpackedFloat.mul, sign_mul_positive]
    | notANumber => rw [UnpackedFloat.mul]
    | zero sign => rw [UnpackedFloat.mul, sign_mul_positive]
    | finite sign m e hm =>
      rw [UnpackedFloat.mul, sign_mul_positive]
      exact roundWithAccuracy_shifted sign hm (targetExponent_unpack h) 52
  have hmodel : x.toModel * (Float.ofNat 1).toModel = x.toModel := by
    change Float.Model.pack (UnpackedFloat.mul Format.binary64 x.toModel.unpack
      (Float.ofNat 1).toModel.unpack) = x.toModel
    rw [hunpacked, model_pack_unpack]
  exact congrArg Float.ofModel hmodel

end Double
end GateCircuit
