/-
# Doubles survive their decimals

A finite double is written as a decimal in the interval of reals that round to it: `search` stops at a
decimal that passed the test for that interval, or else at the exact value. Reading rounds the decimal to
the nearest double, so it returns the double that was written, with its sign, zeros included. The
shortcut for numbers far outside the range never applies to such a decimal. So a format with shortest
decimals is lawful if it rounds only once.

Key definition: `DoubleFormat.Lawful`.
Key theorems: `Double.roundsTo_of_readsBack`, `Double.search_roundsTo`, `Decimal.toDouble_eq`,
`DoubleFormat.nearest_lawful`.
-/
import Mathlib
import GateCircuit.Json.DoubleFormat
import GateCircuit.Proofs.NearestDouble
import GateCircuit.Proofs.Numerals

namespace GateCircuit
namespace Double

/-! ### Writing -/

/-- `compareScaled` compares as rationals do. -/
theorem compareScaled_eq (a : ℕ) (i : ℤ) (n : ℕ) (j : ℤ) :
    compareScaled a i n j = compare ((a : ℚ) * 10 ^ i) (n * 2 ^ j) := by
  -- both sides of the integer comparison are the rationals times the negative powers
  set s : ℚ := 10 ^ (-i).toNat * 2 ^ (-j).toNat with hs
  have hpos : 0 < s := by positivity
  have hleft : ((a * Decimal.tenTo i.toNat) <<< (-j).toNat : ℕ) = a * 10 ^ i * s := by
    rw [zpow_eq_div (by norm_num) i, hs, Nat.shiftLeft_eq, Decimal.tenTo, Nat.pow_eq]
    push_cast
    field_simp
  have hright : ((n * Decimal.tenTo (-i).toNat) <<< j.toNat : ℕ) = n * 2 ^ j * s := by
    rw [zpow_eq_div two_ne_zero j, hs, Nat.shiftLeft_eq, Decimal.tenTo, Nat.pow_eq]
    push_cast
    field_simp
  have hlt : (a * Decimal.tenTo i.toNat) <<< (-j).toNat <
      (n * Decimal.tenTo (-i).toNat) <<< j.toNat ↔ (a : ℚ) * 10 ^ i < n * 2 ^ j := by
    rw [← @Nat.cast_lt ℚ, hleft, hright, mul_lt_mul_iff_of_pos_right hpos]
  have hgt : (n * Decimal.tenTo (-i).toNat) <<< j.toNat <
      (a * Decimal.tenTo i.toNat) <<< (-j).toNat ↔ (n : ℚ) * 2 ^ j < a * 10 ^ i := by
    rw [← @Nat.cast_lt ℚ, hleft, hright, mul_lt_mul_iff_of_pos_right hpos]
  rw [compareScaled]
  rcases lt_trichotomy ((a : ℚ) * 10 ^ i) (n * 2 ^ j) with h | h | h
  · rw [compare_lt_iff_lt.mpr h, Nat.compare_eq_lt.mpr (hlt.mpr h)]
  · rw [compare_eq_iff_eq.mpr h, Nat.compare_eq_eq]
    have := hlt.not.mpr h.not_lt
    have := hgt.not.mpr h.not_gt
    omega
  · rw [compare_gt_iff_gt.mpr h, Nat.compare_eq_gt.mpr (hgt.mpr h)]

section Search

variable {m : ℕ} {q : ℤ}

/-- The test for the interval of a double is sound. -/
theorem roundsTo_of_readsBack {a : ℕ} {k : ℤ} (h : readsBack m q a k = true) :
    RoundsTo (a * 10 ^ k) m q := by
  have hlow : compareScaled a k (lowEnd m q) (q - 2) =
      compare ((a : ℚ) * 10 ^ k) (lowEnd m q * 2 ^ (q - 2)) := compareScaled_eq ..
  have hhigh : compareScaled a k (4 * m + 2) (q - 2) =
      compare ((a : ℚ) * 10 ^ k) ((4 * m + 2) * 2 ^ (q - 2)) := by
    rw [compareScaled_eq]
    push_cast
    rfl
  have hdef : readsBack m q a k =
      if m % 2 = 0 then
        compareScaled a k (lowEnd m q) (q - 2) != .lt &&
          compareScaled a k (4 * m + 2) (q - 2) != .gt
      else
        compareScaled a k (lowEnd m q) (q - 2) == .gt &&
          compareScaled a k (4 * m + 2) (q - 2) == .lt := rfl
  rw [hdef, hlow, hhigh] at h
  split at h
  · rename_i heven
    simp only [Bool.and_eq_true, bne_iff_ne, ne_eq, compare_lt_iff_lt, compare_gt_iff_gt,
      not_lt] at h
    exact ⟨h.1, h.2, .inl (Nat.even_iff.mpr heven)⟩
  · simp only [Bool.and_eq_true, beq_iff_eq, compare_lt_iff_lt, compare_gt_iff_gt] at h
    exact ⟨h.1.le, h.2.le, .inr h⟩

theorem readsBack_of_onGrid {a : ℕ} {k : ℤ} (h : onGrid m q k = some a) :
    readsBack m q a k = true := by
  unfold onGrid at h
  dsimp only at h
  split at h
  · rename_i hlow
    obtain rfl := Option.some.inj h
    exact (Bool.and_eq_true_iff.mp hlow).1
  split at h
  · obtain rfl := Option.some.inj h
    assumption
  · cases h

/-- **The decimal that `search` finds rounds to the double**, whatever the grid it starts from. -/
theorem search_roundsTo (hm : 0 < m) (fuel : ℕ) (k : ℤ) :
    RoundsTo ((search m q fuel k).1 * 10 ^ (search m q fuel k).2) m q := by
  induction fuel generalizing k with
  | zero =>
    have hexact : ((search m q 0 k).1 : ℚ) * 10 ^ (search m q 0 k).2 = m * 2 ^ q := by
      have hfive : (10 : ℚ) ^ min q 0 * 5 ^ (-q).toNat = 1 / 2 ^ (-q).toNat := by
        rw [show min q 0 = -((-q).toNat : ℤ) by omega, zpow_neg, zpow_natCast,
          show (10 : ℚ) = 2 * 5 by norm_num, mul_pow]
        field_simp
      rw [search, Nat.shiftLeft_eq, Nat.pow_eq, zpow_eq_div two_ne_zero]
      push_cast
      linear_combination (m * 2 ^ q.toNat) * hfive
    rw [hexact]
    exact roundsTo_self hm
  | succ fuel ih =>
    rw [search]
    cases hgrid : onGrid m q k with
    | some a => exact roundsTo_of_readsBack (readsBack_of_onGrid hgrid)
    | none => exact ih (k - 1)

theorem size_shortest_zero (negative : Bool) (q : ℤ) : (shortest negative 0 q).size = 0 := by
  rw [shortest, if_pos rfl, Decimal.size, Nat.cast_zero, zero_mul]

theorem shortest_roundsTo (negative : Bool) (hm : 0 < m) :
    RoundsTo (shortest negative m q).size m q := by
  rw [shortest, if_neg hm.ne']
  dsimp only
  rw [Decimal.size_normal]
  exact search_roundsTo hm ..

theorem negative_shortest (negative : Bool) (m : ℕ) (q : ℤ) :
    (shortest negative m q).negative = negative := by
  unfold shortest
  split <;> rfl

/-- Finite doubles that are not zero lie far from the ends of the range that is rounded. -/
theorem RoundsTo.range {v : ℚ} (h : RoundsTo v m q) (hm : Canonical m q) (hpos : 0 < m) :
    (10 : ℚ) ^ (-331 : ℤ) < v ∧ v < 10 ^ (330 : ℤ) := by
  have hone : (1 : ℚ) ≤ m := by exact_mod_cast hpos
  have hmantissa : (m : ℚ) + 1 ≤ 2 * leadingOne := by exact_mod_cast hm.mantissa
  have hleast := hm.least
  have hgreatest := hm.greatest
  rw [minExponent] at hleast
  constructor
  · have hsmall : (10 : ℚ) ^ (-331 : ℤ) < 2 ^ (-1076 : ℤ) := by
      have : (2 : ℚ) ^ 1076 < 10 ^ 331 := by
        exact_mod_cast (by decide +kernel : 2 ^ 1076 < 10 ^ 331)
      rw [zpow_neg, zpow_neg]
      exact inv_strictAnti₀ (by positivity) (by exact_mod_cast this)
    calc (10 : ℚ) ^ (-331 : ℤ) < 2 ^ (-1076 : ℤ) := hsmall
      _ ≤ 2 ^ (q - 2) := zpow_le_zpow_right₀ one_le_two (by omega)
      _ ≤ lowEnd m q * 2 ^ (q - 2) := le_mul_of_one_le_left (by positivity) (by
          linarith [le_lowEnd m q])
      _ ≤ v := h.low
  · have hlarge : (2 : ℚ) ^ 55 * 2 ^ 969 < 10 ^ 330 := by
      exact_mod_cast (by decide +kernel : 2 ^ 55 * 2 ^ 969 < 10 ^ 330)
    have hbits : 4 * (m : ℚ) + 2 ≤ 2 ^ 55 := by
      rw [leadingOne_eq] at hmantissa
      norm_num at hmantissa ⊢
      linarith
    have hscale : (2 : ℚ) ^ (q - 2) ≤ 2 ^ 969 := by
      rw [← zpow_natCast]
      exact zpow_le_zpow_right₀ one_le_two (by omega)
    calc v ≤ (4 * m + 2) * 2 ^ (q - 2) := h.high
      _ ≤ 2 ^ 55 * 2 ^ 969 := by gcongr
      _ < 10 ^ 330 := hlarge
      _ = 10 ^ (330 : ℤ) := (zpow_natCast 10 330).symm

end Search

end Double

/-! ### Reading -/

namespace Decimal

open Double

variable {d : Decimal}

theorem size_eq_zero : d.size = 0 ↔ d.coefficient = 0 := by
  rw [size, mul_eq_zero, Nat.cast_eq_zero]
  exact or_iff_left (zpow_ne_zero _ (by norm_num))

/-- A decimal lies between the powers of ten that its digits name. -/
theorem size_bounds (hd : d.coefficient ≠ 0) :
    (10 : ℚ) ^ (d.exponent + (Nat.toDigits 10 d.coefficient).length - 1) ≤ d.size ∧
      d.size < 10 ^ (d.exponent + (Nat.toDigits 10 d.coefficient).length) := by
  obtain ⟨k, hk⟩ := Nat.exists_eq_succ_of_ne_zero
    (Nat.length_toDigits_pos (b := 10) (n := d.coefficient)).ne'
  rw [hk]
  have hhigh : d.coefficient < 10 ^ (k + 1) :=
    (Nat.length_toDigits_le_iff (by decide) k.succ_pos).mp hk.le
  have hlow : 10 ^ k ≤ d.coefficient := by
    rcases Nat.eq_zero_or_pos k with rfl | hk0
    · exact Nat.pos_of_ne_zero hd
    · by_contra hlt
      have := (Nat.length_toDigits_le_iff (by decide) hk0).mpr (not_le.mp hlt)
      omega
  have hlow' : (10 : ℚ) ^ k ≤ d.coefficient := by exact_mod_cast hlow
  have hhigh' : (d.coefficient : ℚ) < 10 ^ (k + 1) := by exact_mod_cast hhigh
  have hten : (10 : ℚ) ≠ 0 := by norm_num
  constructor
  · calc (10 : ℚ) ^ (d.exponent + (k + 1 : ℕ) - 1) = 10 ^ k * 10 ^ d.exponent := by
          rw [← zpow_natCast, ← zpow_add₀ hten]
          push_cast
          congr 1
          ring
      _ ≤ d.coefficient * 10 ^ d.exponent := by gcongr
  · calc d.coefficient * (10 : ℚ) ^ d.exponent < 10 ^ (k + 1) * 10 ^ d.exponent := by gcongr
      _ = 10 ^ (d.exponent + (k + 1 : ℕ)) := by
          rw [← zpow_natCast, ← zpow_add₀ hten, add_comm]

/-- The quotient that is rounded is the number. -/
theorem size_eq_div (d : Decimal) :
    d.size = (d.coefficient * tenTo d.exponent.toNat : ℕ) / (tenTo (-d.exponent).toNat : ℕ) := by
  rw [size, zpow_eq_div (by norm_num), tenTo, tenTo, Nat.pow_eq, Nat.pow_eq]
  push_cast
  rw [mul_div_assoc]

/-- **A decimal in the interval of a double is read as that double.** -/
theorem toDouble_eq {m : ℕ} {q : ℤ} (hm : Canonical m q) (hpos : 0 < m)
    (h : RoundsTo d.size m q) : d.toDouble = ofMagnitude d.negative (magnitude m q) := by
  have hd : d.coefficient ≠ 0 := fun h0 => (h.pos hpos).ne' (size_eq_zero.mpr h0)
  obtain ⟨hlow, hhigh⟩ := size_bounds hd
  obtain ⟨hsmall, hlarge⟩ := h.range hm hpos
  have hten : (1 : ℚ) < 10 := by norm_num
  have hfirst := (zpow_lt_zpow_iff_right₀ hten).mp (hsmall.trans hhigh)
  have hlast := (zpow_lt_zpow_iff_right₀ hten).mp (hlow.trans_lt hlarge)
  unfold toDouble
  dsimp only
  rw [if_neg (not_or.mpr ⟨hd, by omega⟩), if_neg (by omega)]
  rw [size_eq_div] at h
  exact ofQuotient_eq _ hm hpos (Nat.pow_pos (by decide)).ne' h

theorem toDouble_zero (h : d.size = 0) : d.toDouble = zero d.negative := by
  unfold toDouble
  dsimp only
  rw [if_pos (.inl (size_eq_zero.mp h))]

end Decimal

/-! ### Formats -/

namespace DoubleFormat

open Double

/-- What documents rely on: a finite double is written as a number that reads back as the same double, and
every other double as null. -/
structure Lawful (format : DoubleFormat) : Prop where
  finite : ∀ x : Float, x.isFinite = true → ∃ numeral : Numeral, numeral.WellFormed ∧
    format.write x = .number numeral ∧ format.read? numeral = some x
  other : ∀ x : Float, x.isFinite = false → format.write x = .null

/-- **A finite double is read as it was written**, if numerals are read with a single rounding. -/
theorem nearest_finite {x : Float} (h : x.isFinite = true) : ∃ numeral : Numeral, numeral.WellFormed ∧
    nearest.write x = .number numeral ∧ nearest.read? numeral = some x := by
  obtain ⟨negative, m, q, hx⟩ := isFinite_iff.mp h
  have hm := canonical_of_exact hx
  set numeral := Numeral.ofDecimal (shortest negative m q) with hnumeral
  have hsize : numeral.value.size = (shortest negative m q).size := Numeral.size_ofDecimal _
  have hsign : numeral.value.negative = negative :=
    (Numeral.negative_ofDecimal _).trans (negative_shortest ..)
  have hread : numeral.value.toDouble = x := by
    rcases Nat.eq_zero_or_pos m with rfl | hpos
    · have hq : q = minExponent := hm.full.resolve_right (by rw [leadingOne_eq]; omega)
      rw [Decimal.toDouble_zero (hsize.trans (size_shortest_zero ..)), hsign,
        eq_ofMagnitude hx, hq, magnitude, sub_self, Int.toNat_zero, Nat.zero_mul, zero]
    · rw [Decimal.toDouble_eq hm hpos (hsize ▸ shortest_roundsTo negative hpos), hsign,
        ← eq_ofMagnitude hx]
  refine ⟨numeral, Numeral.wellFormed_ofDecimal _, ?_, ?_⟩
  · change Json.ofDouble x = _
    rw [Json.ofDouble, hx]
  · simp only [nearest, Json.nearest?, hread, Option.filter_some, h, if_true]

theorem nearest_other {x : Float} (h : x.isFinite = false) : nearest.write x = .null := by
  change Json.ofDouble x = .null
  unfold Json.ofDouble
  cases hx : exact x with
  | finite negative m q =>
    have := isFinite_iff.mpr ⟨negative, m, q, hx⟩
    rw [h] at this
    cases this
  | nan => rfl
  | infinite => rfl

/-- **The format that rounds only once is lawful.** -/
theorem nearest_lawful : nearest.Lawful where
  finite _ := nearest_finite
  other _ := nearest_other

end DoubleFormat
end GateCircuit
