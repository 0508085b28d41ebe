/-
# Doubles and their bits

The 63 bits of a finite double after its sign are a natural number, its magnitude: the mantissa on top of as
many steps of `2 ^ 52` as the exponent lies above the least. A mantissa of 53 bits carries one into the
exponent field, so the formula is the same for doubles with a leading one and for those without. Sign and
magnitude determine a finite double.

Key definitions: `Double.Canonical`, `Double.magnitude`.
Key theorems: `Double.ofBits_toBits`, `Double.canonical_of_exact`, `Double.eq_ofMagnitude`,
`Double.isFinite_iff`.
-/
import Mathlib
import GateCircuit.Proofs.UnitDivision

namespace GateCircuit
namespace Double

open Float.Model UnpackedFloat

theorem leadingOne_eq : leadingOne = 4503599627370496 := rfl

theorem signBit_eq : signBit = 9223372036854775808 := rfl

/-- The mantissas and exponents of finite doubles: all 53 bits are in use, unless the exponent is the
least. -/
structure Canonical (m : ℕ) (q : ℤ) : Prop where
  mantissa : m < 2 * leadingOne
  least : minExponent ≤ q
  greatest : q ≤ 971
  full : q = minExponent ∨ leadingOne ≤ m

/-- The bits of the double `m * 2 ^ q`, as a number. -/
def magnitude (m : ℕ) (q : ℤ) : ℕ := (q - minExponent).toNat * leadingOne + m

/-- A double is what its bits say. -/
theorem ofBits_toBits (x : Float) : Float.ofBits x.toBits = x := by
  have hbits : UInt64.ofBitVec (UnpackedFloat.pack Format.binary64 x.toModel.unpack) =
      x.toModel.toBits := by
    rw [Float.Model.unpack, pack_unpack x.toModel.valid]
  have hmodel : Float.Model.ofBits x.toModel.toBits = x.toModel := by
    cases h : x.toModel
    rw [h] at hbits
    exact (Float.Model.mk.injEq ..).mpr hbits
  exact congrArg Float.ofModel hmodel

section Exact

variable {x : Float} {negative : Bool} {m : ℕ} {q : ℤ}

/-- What `exact` reads off: the sign, and the field and fraction of the magnitude. -/
theorem exact_eq_finite (h : exact x = .finite negative m q) :
    Canonical m q ∧ x.toBits.toNat = (if negative then signBit else 0) + magnitude m q := by
  have hlt : x.toBits.toNat < 18446744073709551616 := x.toBits.toNat_lt
  have hleast : minExponent = -1074 := rfl
  have hsign : (if decide (x.toBits.toNat / signBit = 1) = true then signBit else 0) =
      x.toBits.toNat / 9223372036854775808 * 9223372036854775808 := by
    rw [signBit_eq]
    by_cases htop : x.toBits.toNat / 9223372036854775808 = 1
    · simp only [htop, decide_true, if_true, one_mul]
    · rw [if_neg (by simpa using htop)]
      omega
  unfold exact at h
  dsimp only at h
  split at h
  · split at h <;> cases h
  rename_i htop
  split at h
  · -- the exponent is the least
    rename_i hfield
    obtain ⟨rfl, rfl, rfl⟩ := Exact.finite.injEq .. |>.mp h
    rw [hsign, magnitude, sub_self, Int.toNat_zero]
    rw [leadingOne_eq, topField] at htop hfield
    refine ⟨⟨?_, le_rfl, by decide, .inl rfl⟩, ?_⟩ <;> rw [leadingOne_eq] <;> omega
  · -- the mantissa has a leading one
    rename_i hfield
    obtain ⟨rfl, rfl, rfl⟩ := Exact.finite.injEq .. |>.mp h
    rw [hsign, magnitude, add_sub_cancel_left, Int.toNat_natCast]
    rw [leadingOne_eq, topField] at htop hfield
    rw [leadingOne_eq, topField]
    refine ⟨⟨?_, ?_, ?_, .inr ?_⟩, ?_⟩ <;> rw [leadingOne_eq] at * <;> omega

theorem canonical_of_exact (h : exact x = .finite negative m q) : Canonical m q :=
  (exact_eq_finite h).1

/-- **Sign and magnitude determine a finite double.** -/
theorem eq_ofMagnitude (h : exact x = .finite negative m q) :
    x = ofMagnitude negative (magnitude m q) := by
  have hbits := (exact_eq_finite h).2
  have hword : UInt64.ofNat (if negative then signBit + magnitude m q else magnitude m q) =
      x.toBits := by
    have hnat : (if negative then signBit + magnitude m q else magnitude m q) = x.toBits.toNat := by
      rw [hbits]
      split <;> simp
    rw [hnat, UInt64.ofNat_toNat]
  rw [ofMagnitude, hword, ofBits_toBits]

/-- The exponent field of a double. -/
theorem toNat_unpackExponent (b : BitVec Format.binary64.numBits) :
    (unpackExponent b).toNat = b.toNat / leadingOne % (topField + 1) := by
  simp only [unpackExponent, BitVec.toNat_cast, BitVec.extractLsb_toNat, Nat.shiftRight_eq_div_pow]
  rfl

/-- **A double is finite exactly if its exact value is.** -/
theorem isFinite_iff : x.isFinite = true ↔ ∃ negative m q, exact x = .finite negative m q := by
  have hfield : @unpackExponent Format.binary64 x.toModel.toBits.toBitVec = -1#_ ↔
      x.toBits.toNat / leadingOne % (topField + 1) = topField := by
    rw [← BitVec.toNat_inj, toNat_unpackExponent]
    rfl
  change (UnpackedFloat.unpack Format.binary64 x.toModel.toBits.toBitVec).isFinite = true ↔ _
  rw [UnpackedFloat.unpack]
  unfold exact
  simp only [hfield]
  by_cases htop : x.toBits.toNat / leadingOne % (topField + 1) = topField
  · simp only [htop, if_true]
    constructor
    · split <;> simp [UnpackedFloat.isFinite]
    · split <;> simp
  · simp only [htop, if_false]
    constructor
    · intro _
      split <;> simp
    · intro _
      split
      · split <;> rfl
      · rfl

/-- Finite doubles are equal to themselves. -/
theorem beq_self (h : x.isFinite = true) : (x == x) = true := by
  change (x.toModel.unpack.compare x.toModel.unpack == some .eq) = true
  change x.toModel.unpack.isFinite = true at h
  cases hx : x.toModel.unpack with
  | notANumber => rw [hx] at h; cases h
  | infinity s => rw [hx] at h; cases h
  | zero s => cases s <;> rfl
  | finite s m e hm => cases s <;> simp [UnpackedFloat.compare]

end Exact

end Double
end GateCircuit
