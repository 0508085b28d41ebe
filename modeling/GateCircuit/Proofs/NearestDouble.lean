/-
# The nearest double

The reals that round to a positive double form an interval around it: from halfway to the neighbour
below to halfway to the neighbour above, the ends only if the mantissa is even. Below a power of two
the neighbour is half as far away. A quotient of naturals in that interval is rounded to that double:
either its last mantissa bit is the last bit of the double, and the mantissa is the nearest natural, or
the double is a power of two and the quotient lies below it, and then the nearest natural is twice the
mantissa, which carries into the exponent.

Key definitions: `Double.lowEnd`, `Double.RoundsTo`, `Double.LastBit`.
Key theorems: `Double.roundQuotient_eq`, `Double.lastBit_eq`, `Double.ofQuotient_eq`.
-/
import Mathlib
import GateCircuit.Proofs.DoubleBits

namespace GateCircuit
namespace Double

/-! ### Powers and shifts -/

/-- A power with its positive and its negative exponents apart. -/
theorem zpow_eq_div {b : ℚ} (hb : b ≠ 0) (k : ℤ) : b ^ k = b ^ k.toNat / b ^ (-k).toNat := by
  rw [← zpow_natCast, ← zpow_natCast, ← zpow_sub₀ hb, Int.toNat_sub_toNat_neg]

theorem scaleDown_pos {den : ℕ} (num : ℕ) (q : ℤ) (hden : 0 < den) : 0 < (scaleDown num den q).2 := by
  simp only [scaleDown, Nat.shiftLeft_eq]
  positivity

theorem scaleDown_ratio (num den : ℕ) (q : ℤ) :
    ((scaleDown num den q).1 : ℚ) / (scaleDown num den q).2 = num / den / 2 ^ q := by
  rw [scaleDown, zpow_eq_div two_ne_zero]
  simp only [Nat.shiftLeft_eq, Nat.cast_mul, Nat.cast_pow, Nat.cast_ofNat]
  rw [div_div_eq_mul_div, div_mul_eq_mul_div, div_div]

/-- The whole part of a scaled quotient is compared as the quotient is. -/
theorem scaleDown_div_lt {den : ℕ} (num : ℕ) (q : ℤ) (k : ℕ) (hden : 0 < den) :
    (scaleDown num den q).1 / (scaleDown num den q).2 < k ↔ (num : ℚ) / den < k * 2 ^ q := by
  have hpos := scaleDown_pos num q hden
  have hpos' : (0 : ℚ) < (scaleDown num den q).2 := by exact_mod_cast hpos
  rw [← div_lt_iff₀ (by positivity), ← scaleDown_ratio, div_lt_iff₀ hpos',
    Nat.div_lt_iff_lt_mul hpos]
  exact_mod_cast Iff.rfl

/-! ### The nearest natural -/

/-- A natural at most half a unit away from a quotient is its rounding, if it is even or closer. -/
theorem roundQuotient_eq {a b n : ℕ} (hb : 0 < b) (hlow : (n : ℚ) - 1 / 2 ≤ a / b)
    (hhigh : (a : ℚ) / b ≤ n + 1 / 2)
    (heven : Even n ∨ ((n : ℚ) - 1 / 2 < a / b ∧ (a : ℚ) / b < n + 1 / 2)) :
    roundQuotient a b = n := by
  have hb' : (0 : ℚ) < b := by exact_mod_cast hb
  rw [le_div_iff₀ hb'] at hlow
  rw [div_le_iff₀ hb'] at hhigh
  rw [lt_div_iff₀ hb', div_lt_iff₀ hb'] at heven
  have hbelow : 2 * (n * b) ≤ 2 * a + b := by
    have : (2 * (n * b) : ℚ) ≤ 2 * a + b := by linarith
    exact_mod_cast this
  have habove : 2 * a ≤ 2 * (n * b) + b := by
    have : (2 * a : ℚ) ≤ 2 * (n * b) + b := by linarith
    exact_mod_cast this
  have htie : n % 2 = 0 ∨ (2 * (n * b) < 2 * a + b ∧ 2 * a < 2 * (n * b) + b) := by
    refine heven.imp Nat.even_iff.mp fun ⟨h, h'⟩ => ⟨?_, ?_⟩
    · have : (2 * (n * b) : ℚ) < 2 * a + b := by linarith
      exact_mod_cast this
    · have : (2 * a : ℚ) < 2 * (n * b) + b := by linarith
      exact_mod_cast this
  have hrest : a % b < b := Nat.mod_lt a hb
  have hparts : a / b * b + a % b = a := Nat.div_add_mod' a b
  have hle : a / b ≤ n := by
    refine Nat.lt_succ_iff.mp (Nat.lt_of_mul_lt_mul_right (a := b) ?_)
    rw [Nat.succ_mul]
    omega
  have hge : n ≤ a / b + 1 := by
    refine Nat.lt_succ_iff.mp (Nat.lt_of_mul_lt_mul_right (a := b) ?_)
    rw [Nat.succ_mul, Nat.add_mul, one_mul]
    omega
  unfold roundQuotient
  obtain hn | hn : n = a / b ∨ n = a / b + 1 := by omega
  · rw [hn] at hbelow habove htie ⊢
    dsimp only
    split_ifs <;> omega
  · rw [hn, Nat.add_mul, one_mul] at hbelow habove htie
    rw [hn]
    dsimp only
    split_ifs <;> omega

/-! ### The last bit of the mantissa -/

/-- The exponent `q` leaves 53 bits of `v` before the point, or fewer if it is the least. -/
structure LastBit (v : ℚ) (q : ℤ) : Prop where
  least : minExponent ≤ q
  below : v < 2 * leadingOne * 2 ^ q
  above : q = minExponent ∨ leadingOne * 2 ^ q ≤ v

theorem LastBit.le {v : ℚ} {q r : ℤ} (hq : LastBit v q) (hr : LastBit v r) : q ≤ r := by
  rcases hq.above with h | h
  · rw [h]
    exact hr.least
  · have hlt : (leadingOne : ℚ) * 2 ^ q < leadingOne * 2 ^ (r + 1) := by
      refine h.trans_lt (hr.below.trans_eq ?_)
      rw [zpow_add_one₀ two_ne_zero]
      ring
    have hone : (0 : ℚ) < leadingOne := by norm_num [leadingOne_eq]
    have := (zpow_lt_zpow_iff_right₀ one_lt_two).mp (lt_of_mul_lt_mul_left hlt hone.le)
    omega

/-- There is one exponent that leaves 53 bits. -/
theorem LastBit.unique {v : ℚ} {q r : ℤ} (hq : LastBit v q) (hr : LastBit v r) : q = r :=
  le_antisymm (hq.le hr) (hr.le hq)

section Quotient

variable {num den : ℕ}

/-- A quotient lies within a factor of two of the powers that its parts name. -/
theorem log2_bounds (hnum : num ≠ 0) (hden : den ≠ 0) :
    (2 : ℚ) ^ ((num.log2 : ℤ) - den.log2 - 1) < num / den ∧
      (num : ℚ) / den < 2 ^ ((num.log2 : ℤ) - den.log2 + 1) := by
  have hden' : (0 : ℚ) < den := by exact_mod_cast Nat.pos_of_ne_zero hden
  have hnum_low : (2 : ℚ) ^ num.log2 ≤ num := by exact_mod_cast Nat.log2_self_le hnum
  have hnum_high : (num : ℚ) < 2 ^ (num.log2 + 1) := by exact_mod_cast Nat.lt_log2_self
  have hden_low : (2 : ℚ) ^ den.log2 ≤ den := by exact_mod_cast Nat.log2_self_le hden
  have hden_high : (den : ℚ) < 2 ^ (den.log2 + 1) := by exact_mod_cast Nat.lt_log2_self
  constructor
  · calc (2 : ℚ) ^ ((num.log2 : ℤ) - den.log2 - 1)
        = 2 ^ num.log2 / 2 ^ (den.log2 + 1) := by
          rw [← zpow_natCast, ← zpow_natCast, ← zpow_sub₀ two_ne_zero]
          push_cast
          congr 1
          ring
      _ ≤ num / 2 ^ (den.log2 + 1) := by gcongr
      _ < num / den := by
          have hpos : (0 : ℚ) < num := by exact_mod_cast Nat.pos_of_ne_zero hnum
          gcongr
  · calc (num : ℚ) / den < 2 ^ (num.log2 + 1) / den := by gcongr
      _ ≤ 2 ^ (num.log2 + 1) / 2 ^ den.log2 := by gcongr
      _ = 2 ^ ((num.log2 : ℤ) - den.log2 + 1) := by
          rw [← zpow_natCast, ← zpow_natCast, ← zpow_sub₀ two_ne_zero]
          push_cast
          congr 1
          ring

/-- `lastBit` finds the exponent that leaves 53 bits. -/
theorem lastBit_spec (hnum : num ≠ 0) (hden : den ≠ 0) : LastBit (num / den) (lastBit num den) := by
  obtain ⟨hlow, hhigh⟩ := log2_bounds hnum hden
  have hone : (leadingOne : ℚ) = 2 ^ (52 : ℤ) := by norm_num [leadingOne_eq]
  set e : ℤ := (num.log2 : ℤ) - den.log2 with he
  set guess : ℤ := max (e - 53) minExponent with hguess
  have hstep : ∀ k : ℤ, (leadingOne : ℚ) * 2 ^ k = 2 ^ (k + 52) := fun k => by
    rw [hone, ← zpow_add₀ two_ne_zero, add_comm]
  have hstep' : ∀ k : ℤ, 2 * (leadingOne : ℚ) * 2 ^ k = 2 ^ (k + 53) := fun k => by
    rw [mul_assoc, hstep, ← zpow_one_add₀ two_ne_zero]
    congr 1
    ring
  have hmono : ∀ {j k : ℤ}, j ≤ k → (2 : ℚ) ^ j ≤ 2 ^ k := zpow_le_zpow_right₀ one_le_two
  have hscaled : (scaleDown num den guess).1 / (scaleDown num den guess).2 < 2 * leadingOne ↔
      (num : ℚ) / den < 2 * leadingOne * 2 ^ guess := by
    have := scaleDown_div_lt num guess (2 * leadingOne) (Nat.pos_of_ne_zero hden)
    push_cast at this
    exact this
  have hdef : lastBit num den =
      if (scaleDown num den guess).1 / (scaleDown num den guess).2 < 2 * leadingOne then guess
      else guess + 1 := rfl
  have hleast : minExponent ≤ guess := le_max_right ..
  rw [hdef]
  split
  · rename_i hfew
    refine ⟨hleast, hscaled.mp hfew, ?_⟩
    rcases le_total (e - 53) minExponent with h | h
    · exact .inl (max_eq_right h)
    · refine .inr ?_
      rw [hstep]
      exact (hmono (by omega)).trans hlow.le
  · rename_i hmany
    have hmany' : 2 * (leadingOne : ℚ) * 2 ^ guess ≤ num / den := not_lt.mp fun h =>
      hmany (hscaled.mpr h)
    refine ⟨by omega, ?_, .inr ?_⟩
    · rw [hstep']
      exact hhigh.trans_le (hmono (by omega))
    · rwa [hstep, show guess + 1 + 52 = guess + 53 by ring, ← hstep']

theorem lastBit_eq {q : ℤ} (hnum : num ≠ 0) (hden : den ≠ 0) (h : LastBit (num / den) q) :
    lastBit num den = q :=
  (lastBit_spec hnum hden).unique h

end Quotient

/-! ### The interval of a double -/

/-- The lower end of the reals that round to `m * 2 ^ q`, in quarters of its last bit. -/
def lowEnd (m : ℕ) (q : ℤ) : ℕ := if m = leadingOne ∧ minExponent < q then 4 * m - 1 else 4 * m - 2

/-- The reals that round to the positive double `m * 2 ^ q`. -/
structure RoundsTo (v : ℚ) (m : ℕ) (q : ℤ) : Prop where
  low : lowEnd m q * 2 ^ (q - 2) ≤ v
  high : v ≤ (4 * m + 2) * 2 ^ (q - 2)
  inside : Even m ∨ (lowEnd m q * 2 ^ (q - 2) < v ∧ v < (4 * m + 2) * 2 ^ (q - 2))

section Interval

variable {v : ℚ} {m : ℕ} {q : ℤ}

theorem lowEnd_le (m : ℕ) (q : ℤ) : lowEnd m q < 4 * m ∨ m = 0 := by
  unfold lowEnd
  split_ifs <;> omega

theorem le_lowEnd (m : ℕ) (q : ℤ) : 4 * (m : ℚ) - 2 ≤ lowEnd m q := by
  have : 4 * m ≤ lowEnd m q + 2 := by
    unfold lowEnd
    split_ifs <;> omega
  have hcast : (4 * m : ℚ) ≤ lowEnd m q + 2 := by exact_mod_cast this
  linarith

/-- A positive double lies in its own interval. -/
theorem roundsTo_self (hm : 0 < m) : RoundsTo (m * 2 ^ q) m q := by
  have hlow : (lowEnd m q : ℚ) < 4 * m := by
    exact_mod_cast (lowEnd_le m q).resolve_right hm.ne'
  have hquarter : (m : ℚ) * 2 ^ q = 4 * m * 2 ^ (q - 2) := by
    rw [zpow_sub₀ two_ne_zero]
    ring
  rw [hquarter]
  have hstrict : (lowEnd m q : ℚ) * 2 ^ (q - 2) < 4 * m * 2 ^ (q - 2) ∧
      4 * (m : ℚ) * 2 ^ (q - 2) < (4 * m + 2) * 2 ^ (q - 2) := by
    constructor <;> gcongr
    linarith
  exact ⟨hstrict.1.le, hstrict.2.le, .inr hstrict⟩

theorem RoundsTo.pos (h : RoundsTo v m q) (hm : 0 < m) : 0 < v := by
  refine lt_of_lt_of_le ?_ h.low
  have hone : (1 : ℚ) ≤ m := by exact_mod_cast hm
  have := le_lowEnd m q
  have : (0 : ℚ) < lowEnd m q := by linarith
  positivity

/-- The interval in units of the last bit. -/
theorem RoundsTo.scaled (h : RoundsTo v m q) :
    (m : ℚ) - 1 / 2 ≤ v / 2 ^ q ∧ v / 2 ^ q ≤ m + 1 / 2 ∧
      (Even m ∨ ((m : ℚ) - 1 / 2 < v / 2 ^ q ∧ v / 2 ^ q < m + 1 / 2)) := by
  have hquarter : (2 : ℚ) ^ (q - 2) = 2 ^ q / 4 := by
    rw [zpow_sub₀ two_ne_zero]
    norm_num
  have hpos : (0 : ℚ) < 2 ^ q := by positivity
  have hend := mul_le_mul_of_nonneg_right (le_lowEnd m q) hpos.le
  obtain ⟨hlow, hhigh, hinside⟩ := h
  rw [hquarter] at hlow hhigh hinside
  rw [le_div_iff₀ hpos, div_le_iff₀ hpos, lt_div_iff₀ hpos, div_lt_iff₀ hpos]
  refine ⟨by linarith, by linarith, hinside.imp_right fun ⟨h, h'⟩ => ⟨by linarith, by linarith⟩⟩

/-- Unless it lies below a power of two, a real in the interval has the last bit of the double. -/
theorem RoundsTo.lastBit (h : RoundsTo v m q) (hm : Canonical m q)
    (hpower : q = minExponent ∨ leadingOne * 2 ^ q ≤ v) : LastBit v q := by
  refine ⟨hm.least, ?_, hpower⟩
  have hpos : (0 : ℚ) < 2 ^ q := by positivity
  have hmantissa : (m : ℚ) + 1 ≤ 2 * leadingOne := by exact_mod_cast hm.mantissa
  rw [← div_lt_iff₀ hpos]
  linarith [h.scaled.2.1]

/-- Only a power of two has reals below it that round to it from a finer scale. -/
theorem RoundsTo.below_power (h : RoundsTo v m q) (hm : Canonical m q) (hq : q ≠ minExponent)
    (hv : v < leadingOne * 2 ^ q) :
    m = leadingOne ∧ 2 * (m : ℚ) - 1 / 2 ≤ v / 2 ^ (q - 1) ∧ v / 2 ^ (q - 1) < 2 * m := by
  have hpos : (0 : ℚ) < 2 ^ q := by positivity
  have hleast : minExponent < q := lt_of_le_of_ne hm.least hq.symm
  have hfull : leadingOne ≤ m := hm.full.resolve_left hq
  have heq : m = leadingOne := by
    by_contra hne
    have hlt : (leadingOne : ℚ) + 1 ≤ m := by exact_mod_cast lt_of_le_of_ne hfull (Ne.symm hne)
    have := (div_lt_iff₀ hpos).mpr hv
    linarith [h.scaled.1]
  have hlow := h.low
  rw [lowEnd, if_pos ⟨heq, hleast⟩] at hlow
  have hcast : ((4 * m - 1 : ℕ) : ℚ) = 4 * m - 1 := by
    rw [Nat.cast_sub (by have := leadingOne_eq; omega)]
    norm_num
  rw [hcast, zpow_sub₀ two_ne_zero] at hlow
  rw [← heq] at hv
  rw [zpow_sub₀ two_ne_zero, zpow_one, div_div_eq_mul_div, le_div_iff₀ hpos, div_lt_iff₀ hpos]
  refine ⟨heq, ?_, by linarith⟩
  norm_num at hlow
  linarith

theorem magnitude_lt (hm : Canonical m q) : magnitude m q < topField * leadingOne := by
  have hleast : minExponent = -1074 := rfl
  have hmantissa := hm.mantissa
  have hlow := hm.least
  have hhigh := hm.greatest
  rw [magnitude, leadingOne_eq, topField] at *
  omega

section Quotient

variable {num den : ℕ}

/-- With the last bit of the double, the nearest natural is the mantissa. -/
theorem RoundsTo.roundQuotient_self (h : RoundsTo (num / den) m q) (hden : den ≠ 0) :
    roundQuotient (scaleDown num den q).1 (scaleDown num den q).2 = m := by
  obtain ⟨hlow, hhigh, hinside⟩ := h.scaled
  rw [← scaleDown_ratio] at hlow hhigh hinside
  exact roundQuotient_eq (scaleDown_pos num q (Nat.pos_of_ne_zero hden)) hlow hhigh hinside

/-- Below a power of two the last bit is one lower, and the nearest natural is twice the mantissa. -/
theorem RoundsTo.roundQuotient_below (h : RoundsTo (num / den) m q) (hm : Canonical m q)
    (hpos : 0 < m) (hden : den ≠ 0) (hq : q ≠ minExponent)
    (hv : (num : ℚ) / den < leadingOne * 2 ^ q) : LastBit (num / den) (q - 1) ∧
      roundQuotient (scaleDown num den (q - 1)).1 (scaleDown num den (q - 1)).2 = 2 * m := by
  obtain ⟨hm', hlow, hhigh⟩ := h.below_power hm hq hv
  have hone : (1 : ℚ) ≤ m := by exact_mod_cast hpos
  have hleast := hm.least
  have hstep : (0 : ℚ) < 2 ^ (q - 1) := by positivity
  constructor
  · refine ⟨by omega, ?_, .inr ?_⟩
    · rwa [← hm', ← div_lt_iff₀ hstep]
    · rw [← hm', ← le_div_iff₀ hstep]
      linarith
  · rw [← scaleDown_ratio] at hlow hhigh
    refine roundQuotient_eq (scaleDown_pos num (q - 1) (Nat.pos_of_ne_zero hden)) ?_ ?_
      (.inl (even_two_mul m))
    · push_cast
      exact hlow
    · push_cast
      linarith

/-- **A quotient in the interval of a double is rounded to it.** -/
theorem ofQuotient_eq (negative : Bool) (hm : Canonical m q) (hpos : 0 < m) (hden : den ≠ 0)
    (h : RoundsTo (num / den) m q) :
    ofQuotient negative num den = ofMagnitude negative (magnitude m q) := by
  have hnum : num ≠ 0 := by
    rintro rfl
    simpa using h.pos hpos
  have hrounded : (lastBit num den - minExponent).toNat * leadingOne +
      roundQuotient (scaleDown num den (lastBit num den)).1 (scaleDown num den (lastBit num den)).2 =
        magnitude m q := by
    by_cases hpower : q = minExponent ∨ leadingOne * 2 ^ q ≤ (num : ℚ) / den
    · rw [lastBit_eq hnum hden (h.lastBit hm hpower), h.roundQuotient_self hden, magnitude]
    · -- the second `leadingOne` of the mantissa carries into the exponent
      obtain ⟨hq, hv⟩ := not_or.mp hpower
      obtain ⟨hlast, hround⟩ := h.roundQuotient_below hm hpos hden hq (not_le.mp hv)
      have hm' := (h.below_power hm hq (not_le.mp hv)).1
      have hless : minExponent < q := lt_of_le_of_ne hm.least (Ne.symm hq)
      obtain ⟨k, hk⟩ : ∃ k : ℕ, q - minExponent = k + 1 :=
        ⟨(q - minExponent - 1).toNat, by omega⟩
      rw [lastBit_eq hnum hden hlast, hround, magnitude, hk,
        show q - 1 - minExponent = k by omega, ← hm']
      simp only [Int.toNat_natCast, Int.toNat_natCast_add_one]
      ring
  unfold ofQuotient
  rw [if_neg hnum]
  dsimp only
  rw [hrounded, if_pos (magnitude_lt hm)]

end Quotient

end Interval

end Double
end GateCircuit
