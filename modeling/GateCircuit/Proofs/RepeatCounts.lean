/-
# Repeats in doubles

A double that is a number and not less than one counts at least one when its integral part is taken: it is
infinite, or its mantissa has all 53 bits and its exponent is at least that of one, so that not all of the
bits lie behind the point. So the default number of repeats is at least one, whatever the angle, and an
explicit number that is the default asks for the default.

Key theorems: `one_le_roundToInt`, `finite_of_not_less`, `one_le_toUInt32`,
`double_defaultRepeats_pos`, `double_chosenRepeats_pos`.
-/
import Mathlib
import GateCircuit.Lowering
import GateCircuit.Proofs.UnitDivision

namespace GateCircuit

open Float.Model UnpackedFloat

/-! ### Integral parts -/

theorem mantissa_shiftRight (em : ExtendedMantissa) (k : ℕ) :
    (em >>> k).mantissa = em.mantissa / 2 ^ k := by
  induction k with
  | zero => exact (Nat.div_one em.mantissa).symm
  | succ k ih =>
    change (em >>> k).mantissa / 2 = _
    rw [ih, Nat.div_div_eq_div_mul, pow_succ]

/-- A finite number with a bit in front of the point has an integral part. -/
theorem one_le_roundToInt {m : ℕ} {e : ℤ} (hm : 2 ^ 52 ≤ m) (he : -52 ≤ e) :
    1 ≤ roundToInt .positive m e := by
  have hshift : 2 ^ (0 - e).toNat ≤ m <<< (e - 0).toNat := by
    rw [Nat.shiftLeft_eq]
    calc 2 ^ (0 - e).toNat ≤ 2 ^ 52 := Nat.pow_le_pow_right (by decide) (by omega)
      _ ≤ m := hm
      _ ≤ m * 2 ^ (e - 0).toNat := Nat.le_mul_of_pos_right m (by positivity)
  have hpoint : (0 - (e - ((e - 0).toNat : ℤ))).toNat = (0 - e).toNat := by omega
  have hint : roundToInt .positive m e =
      (((m <<< (e - 0).toNat) / 2 ^ (0 - e).toNat : ℕ) : ℤ) := by
    simp only [roundToInt, decreaseExponent, shiftToExponent, mantissa_shiftRight, hpoint]
    rfl
  rw [hint]
  exact_mod_cast (Nat.one_le_div_iff (by positivity)).mpr hshift

theorem lt_of_compare {x y : Float} (h : x.toModel.unpack.compare y.toModel.unpack = some .lt) :
    x < y := by
  have hlt : x.toModel.unpack.lt y.toModel.unpack = true := by
    rw [UnpackedFloat.lt, h]
    rfl
  change decide (x.toModel < y.toModel) = true
  exact decide_eq_true hlt

theorem unpack_one : (1.0 : Float).toModel.unpack = .finite .positive (2 ^ 52) (-52) (by decide) := by
  have hone : (1.0 : Float) = Float.ofNat 1 := by decide +kernel
  rw [hone, unpack_double_one]

/-- Two finite doubles are compared by their exponents first. One that is not less than one has at least
the exponent of one, and then all bits of a mantissa. -/
theorem finite_of_not_less {x : Float} {m : ℕ} {e : ℤ} {hm : 0 < m}
    (h : x.toModel.unpack = .finite .positive m e hm) (hless : ¬ x < 1.0) : 2 ^ 52 ≤ m ∧ -52 ≤ e := by
  have hcompare : (compare e (-52)).then (compare m (2 ^ 52)) ≠ .lt := by
    intro hlt
    refine hless (lt_of_compare ?_)
    rw [h, unpack_one, UnpackedFloat.compare, hlt]
  have hexponent : -52 ≤ e := by
    by_contra hsmall
    rw [Int.not_le] at hsmall
    rw [compare_lt_iff_lt.mpr hsmall] at hcompare
    exact hcompare rfl
  refine ⟨?_, hexponent⟩
  rcases hexponent.lt_or_eq with hlarge | rfl
  · -- above the least exponent the mantissa has all its bits
    have htarget := targetExponent_unpack h
    rw [targetExponent_binary64, totalExponent] at htarget
    have hlog : m.log2 = 52 := by omega
    exact (Nat.le_log2 hm.ne').mp hlog.ge
  · by_contra hsmall
    rw [Nat.not_le] at hsmall
    rw [Std.compare_self, compare_lt_iff_lt.mpr hsmall] at hcompare
    exact hcompare rfl

/-- **A double that is not less than one counts at least one.** -/
theorem one_le_toUInt32 {x : Float} (hnumber : x.isNaN = false) (hless : ¬ x < 1.0) :
    1 ≤ x.toUInt32.toNat := by
  have hclamp : ∀ n : ℕ, 1 ≤ n → 1 ≤ (UInt32.ofNatClamp n).toNat := by
    intro n hn
    unfold UInt32.ofNatClamp
    split
    · simpa using hn
    · decide
  have hbelow : ∀ {u : UnpackedFloat}, x.toModel.unpack = u →
      u.compare (.finite .positive (2 ^ 52) (-52) (by decide)) ≠ some .lt := by
    rintro u rfl hlt
    rw [← unpack_one] at hlt
    exact hless (lt_of_compare hlt)
  have hint : 1 ≤ x.toModel.unpack.toInt 0 (UInt32.size - 1) := by
    cases h : x.toModel.unpack with
    | notANumber =>
      change x.toModel.unpack.isNaN = false at hnumber
      rw [h] at hnumber
      cases hnumber
    | infinity sign =>
      cases sign with
      | positive => decide
      | negative => exact absurd rfl (hbelow h)
    | zero sign => exact absurd rfl (hbelow h)
    | finite sign m e hm =>
      cases sign with
      | positive =>
        obtain ⟨hmantissa, hexponent⟩ := finite_of_not_less h hless
        exact one_le_roundToInt hmantissa hexponent
      | negative => exact absurd rfl (hbelow h)
  change 1 ≤ (UInt32.ofNatClamp (x.toModel.unpack.toInt 0 (UInt32.size - 1)).toNat).toNat
  exact hclamp _ (by omega)

/-! ### Repeats -/

/-- **The default number of repeats is at least one**, also for angles that are no numbers. -/
theorem double_defaultRepeats_pos (angle : Float) (n : ℕ) : 0 < defaultRepeats angle n := by
  have hcount : ∀ share : Float,
      0 < if (share.isNaN || decide (share < 1.0)) = true then 1 else share.toUInt32.toNat := by
    intro share
    split
    · exact Nat.one_pos
    · rename_i hshare
      rw [Bool.or_eq_true, not_or, Bool.not_eq_true, decide_eq_true_eq] at hshare
      exact one_le_toUInt32 hshare.1 hshare.2
  exact hcount _

theorem double_chosenRepeats_pos (angle : Float) (n repeats : ℕ) :
    0 < chosenRepeats angle n repeats := by
  unfold chosenRepeats
  split
  · exact double_defaultRepeats_pos angle n
  · omega

end GateCircuit
