/-
# Comparing doubles

Two doubles compare as less, equal or greater, unless one of them is no number: then neither is at most the
other. So a test that refuses what is greater than a bound lets pass what is at most the bound, and what is
no number. Doubles that compare as equal are the same, zeros of either sign apart.

Key theorems: `eq_of_compare`, `compare_swap`, `compare_eq_none`, `not_lt_iff`, `eq_of_beq`, `isNaN_abs`.
-/
import Mathlib
import GateCircuit.Proofs.DoubleBits

namespace GateCircuit
namespace Double

open Float.Model UnpackedFloat

/-! ### Unpacked doubles -/

section Unpacked

variable {u v : UnpackedFloat}

/-- What compares as equal is the same, or zero twice. -/
theorem eq_of_compare (h : u.compare v = some .eq) : u = v ∨ ∃ s t, u = .zero s ∧ v = .zero t := by
  have hparts : ∀ {e e' : ℤ} {m m' : ℕ},
      (compare e e').then (compare m m') = .eq → e = e' ∧ m = m' := by
    intro e e' m m' hparts
    rw [Ordering.then_eq_eq] at hparts
    exact ⟨compare_eq_iff_eq.mp hparts.1, compare_eq_iff_eq.mp hparts.2⟩
  cases u with
  | notANumber => cases v <;> cases h
  | infinity s =>
    cases v with
    | infinity t => cases s <;> cases t <;> first | exact .inl rfl | cases h
    | _ => cases s <;> cases h
  | zero s =>
    cases v with
    | notANumber => cases h
    | infinity t => cases t <;> cases h
    | zero t => exact .inr ⟨s, t, rfl, rfl⟩
    | finite t => cases t <;> cases h
  | finite s m e hm =>
    cases v with
    | notANumber => cases h
    | infinity t => cases t <;> cases h
    | zero t => cases s <;> cases h
    | finite t m' e' hm' =>
      -- signs differ in the middle two cases
      cases s <;> cases t
      · simp only [UnpackedFloat.compare, Option.some.injEq, Ordering.swap_eq_eq] at h
        obtain ⟨rfl, rfl⟩ := hparts h
        exact .inl rfl
      · cases h
      · cases h
      · simp only [UnpackedFloat.compare, Option.some.injEq] at h
        obtain ⟨rfl, rfl⟩ := hparts h
        exact .inl rfl

/-- A comparison from the other side. -/
theorem compare_swap (u v : UnpackedFloat) : v.compare u = (u.compare v).map Ordering.swap := by
  have hparts : ∀ (e e' : ℤ) (m m' : ℕ), (compare e' e).then (compare m' m) =
      ((compare e e').then (compare m m')).swap := by
    intro e e' m m'
    rw [Ordering.swap_then, Std.OrientedOrd.eq_swap (a := e'), Std.OrientedOrd.eq_swap (a := m')]
  cases u with
  | notANumber => cases v <;> rfl
  | infinity s =>
    cases v with
    | notANumber => cases s <;> rfl
    | infinity t => cases s <;> cases t <;> rfl
    | zero t => cases s <;> rfl
    | finite t => cases s <;> cases t <;> rfl
  | zero s =>
    cases v with
    | notANumber => rfl
    | infinity t => cases t <;> rfl
    | zero t => rfl
    | finite t => cases t <;> rfl
  | finite s m e hm =>
    cases v with
    | notANumber => cases s <;> rfl
    | infinity t => cases s <;> cases t <;> rfl
    | zero t => cases s <;> rfl
    | finite t m' e' hm' =>
      cases s <;> cases t
      · exact congrArg (some ·.swap) (hparts e e' m m')
      · rfl
      · rfl
      · exact congrArg some (hparts e e' m m')

/-- Only what is no number does not compare. -/
theorem compare_eq_none : u.compare v = none ↔ u.isNaN = true ∨ v.isNaN = true := by
  have hnumbers : u.isNaN = false → v.isNaN = false → ∃ o, u.compare v = some o := by
    intro hu hv
    cases u with
    | notANumber => cases hu
    | infinity s =>
      cases v with
      | notANumber => cases hv
      | infinity t => exact ⟨_, rfl⟩
      | zero t => cases s <;> exact ⟨_, rfl⟩
      | finite t => cases s <;> exact ⟨_, rfl⟩
    | zero s =>
      cases v with
      | notANumber => cases hv
      | infinity t => cases t <;> exact ⟨_, rfl⟩
      | zero t => exact ⟨_, rfl⟩
      | finite t => cases t <;> exact ⟨_, rfl⟩
    | finite s m e hm =>
      cases v with
      | notANumber => cases hv
      | infinity t => cases t <;> exact ⟨_, rfl⟩
      | zero t => cases s <;> exact ⟨_, rfl⟩
      | finite t => cases s <;> cases t <;> exact ⟨_, rfl⟩
  constructor
  · intro h
    by_contra hno
    rw [not_or, Bool.not_eq_true, Bool.not_eq_true] at hno
    obtain ⟨o, ho⟩ := hnumbers hno.1 hno.2
    rw [ho] at h
    cases h
  · rintro (h | h)
    · cases u <;> first | rfl | cases h
    · cases v <;> first | (cases u <;> rfl) | cases h

theorem unpackExponent_packComponents (s : Sign) (exponent : BitVec Format.binary64.exponentBits)
    (mantissa : BitVec Format.binary64.mantissaBitsWithoutImplicit) :
    unpackExponent (packComponents Format.binary64 s exponent mantissa) = exponent := by
  have hexponent : exponent.toNat < 2 ^ 11 := exponent.isLt
  have hmantissa : mantissa.toNat < 2 ^ 52 := mantissa.isLt
  apply BitVec.eq_of_toNat_eq
  rw [toNat_unpackExponent, leadingOne_eq, topField, packComponents, BitVec.toNat_append,
    BitVec.toNat_append, ← Nat.shiftLeft_add_eq_or_of_lt hmantissa,
    ← Nat.shiftLeft_add_eq_or_of_lt hexponent]
  simp only [Nat.shiftLeft_eq]
  omega

/-- Only the greatest exponent field is that of what is no number. -/
theorem isNaN_unpack_eq_false {b : BitVec Format.binary64.numBits} (h : unpackExponent b ≠ -1#11) :
    (UnpackedFloat.unpack Format.binary64 b).isNaN = false := by
  rw [UnpackedFloat.unpack]
  simp only
  rw [if_neg h]
  split
  · split <;> rfl
  · rfl

/-- **Packing keeps numbers and what is no number apart.** -/
theorem isNaN_pack (u : UnpackedFloat) :
    (UnpackedFloat.unpack Format.binary64 (UnpackedFloat.pack Format.binary64 u)).isNaN = u.isNaN := by
  cases u with
  | notANumber => decide
  | infinity s => cases s <;> decide
  | zero s => cases s <;> decide
  | finite s m e hm =>
    rw [UnpackedFloat.pack]
    split
    · rw [show (finite s m e hm).isNaN = false from rfl]
      cases s <;> decide
    · rename_i hsmall
      refine isNaN_unpack_eq_false ?_
      split
      · rw [unpackExponent_packComponents]
        intro htop
        have hfield := congrArg BitVec.toNat htop
        rw [BitVec.toNat_ofNat] at hfield
        change _ % 2 ^ 11 = 2047 at hfield
        change ¬ 2 ^ 11 ≤ _ at hsmall
        omega
      · rw [unpackExponent_packComponents]
        decide

end Unpacked

/-! ### Doubles -/

section Doubles

variable {x y : Float}

theorem lt_iff_compare : x < y ↔ x.toModel.unpack.compare y.toModel.unpack = some .lt := by
  have hlt : x < y ↔ (x.toModel.unpack.compare y.toModel.unpack == some .lt) = true :=
    decide_eq_true_iff.trans Iff.rfl
  rw [hlt, beq_iff_eq]

theorem le_iff_compare :
    x ≤ y ↔ ∃ o, x.toModel.unpack.compare y.toModel.unpack = some o ∧ o ≠ .gt := by
  have hle : x ≤ y ↔ ((x.toModel.unpack.compare y.toModel.unpack).any (·.isLE)) = true :=
    decide_eq_true_iff.trans Iff.rfl
  have horder : ∀ o : Ordering, o.isLE = true ↔ o ≠ .gt := by decide
  rw [hle, Option.any_eq_true]
  simp only [horder]

/-- **A double that is not less than another is at least the other,** or one of the two is no number. -/
theorem not_lt_iff : ¬ x < y ↔ y ≤ x ∨ x.isNaN = true ∨ y.isNaN = true := by
  have hnone : x.toModel.unpack.compare y.toModel.unpack = none ↔ x.isNaN = true ∨ y.isNaN = true :=
    compare_eq_none
  rw [lt_iff_compare, le_iff_compare, compare_swap x.toModel.unpack, ← hnone]
  cases x.toModel.unpack.compare y.toModel.unpack with
  | none => simp
  | some o => cases o <;> simp

/-- What unpacks to a zero is a zero, of either sign. -/
theorem eq_zero_of_unpack {s : Sign} (h : x.toModel.unpack = .zero s) : x = 0.0 ∨ x = -0.0 := by
  have hmodel : x.toModel = Float.Model.pack (.zero s) := by rw [← h, model_pack_unpack]
  cases s with
  | positive => exact .inl (congrArg Float.ofModel hmodel)
  | negative => exact .inr (congrArg Float.ofModel hmodel)

/-- **Doubles that compare as equal are the same,** but for the signs of zeros. -/
theorem eq_of_beq (h : (x == y) = true) :
    x = y ∨ (x = 0.0 ∨ x = -0.0) ∧ (y = 0.0 ∨ y = -0.0) := by
  have hequal : x.toModel.unpack.compare y.toModel.unpack = some .eq := beq_iff_eq.mp h
  rcases eq_of_compare hequal with hunpacked | ⟨s, t, hx, hy⟩
  · have hmodel : x.toModel = y.toModel := by
      rw [← model_pack_unpack x, hunpacked, model_pack_unpack]
    exact .inl (congrArg Float.ofModel hmodel)
  · exact .inr ⟨eq_zero_of_unpack hx, eq_zero_of_unpack hy⟩

/-- The absolute value of what is no number is no number, and no other absolute value. -/
theorem isNaN_abs (x : Float) : x.abs.isNaN = x.isNaN := by
  have habs : x.toModel.unpack.abs.isNaN = x.toModel.unpack.isNaN := by
    cases x.toModel.unpack <;> rfl
  exact (isNaN_pack x.toModel.unpack.abs).trans habs

end Doubles

end Double
end GateCircuit
