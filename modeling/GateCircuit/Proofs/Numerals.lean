/-
# Numerals and their values

A run of digits writes a natural, and the digits of a natural write it. Normal form keeps the value of a
decimal, and the numeral of a decimal has its value. Without an exponent, the digits on both sides of the
point are the digits of the coefficient, padded in front, and as many of them stand after the point as the
power of ten asks for; with one, they are cut after the first digit. The numerals that are written have at
least one digit before the point, and a zero there only alone.

Key definitions: `Decimal.size`, `Numeral.WellFormed`.
Key theorems: `Decimal.natural_toDigits`, `Decimal.size_normal`, `Numeral.size_ofDecimal`,
`Numeral.wellFormed_ofNat`, `Numeral.wellFormed_ofDecimal`.
-/
import Mathlib
import GateCircuit.Decimal.Numeral

namespace GateCircuit

/-! ### Digits -/

namespace Decimal

theorem isDigit_eq (c : Char) : isDigit c = c.isDigit := by
  have hdigit : c.isDigit = true ↔ '0' ≤ c ∧ c ≤ '9' := by
    rw [Char.isDigit, Bool.and_eq_true_iff, decide_eq_true_iff, decide_eq_true_iff]
    exact Iff.rfl
  rw [Bool.eq_iff_iff, hdigit]
  unfold isDigit digit?
  split <;> simp_all

theorem digit?_getD {c : Char} (h : c.isDigit) : (digit? c).getD 0 = c.toNat - '0'.toNat := by
  rw [← isDigit_eq] at h
  unfold isDigit digit? at h
  unfold digit?
  split at h
  · rw [if_pos ‹_›, Option.getD_some]
  · cases h

theorem natural_append (start : ℕ) (run rest : List Char) :
    natural start (run ++ rest) = natural (natural start run) rest :=
  List.foldl_append

/-- What a run of digits writes. -/
theorem natural_eq_ofDigitChars {run : List Char} (h : ∀ c ∈ run, c.isDigit) (start : ℕ) :
    natural start run = Nat.ofDigitChars 10 run start := by
  induction run generalizing start with
  | nil => rfl
  | cons c run ih =>
    rw [Nat.ofDigitChars_cons, ← ih fun d hd => h d (List.mem_cons_of_mem c hd),
      ← digit?_getD (h c List.mem_cons_self)]
    rfl

theorem isDigit_toDigits (n : ℕ) : ∀ c ∈ Nat.toDigits 10 n, c.isDigit := fun _ =>
  Nat.isDigit_of_mem_toDigits (by decide) le_rfl

/-- The digits of a natural write it. -/
theorem natural_toDigits (n : ℕ) : natural 0 (Nat.toDigits 10 n) = n := by
  rw [natural_eq_ofDigitChars (isDigit_toDigits n), Nat.ofDigitChars_ten_toDigits]

/-- The digits of a natural start with a zero only if it is zero. -/
theorem head?_toDigits {n : ℕ} (hn : 0 < n) : (Nat.toDigits 10 n).head? ≠ some '0' := by
  induction n using Nat.strongRecOn with
  | ind n ih =>
    rw [Nat.toDigits_eq_if (by decide)]
    split
    · simpa using hn.ne'
    · rw [List.head?_append_of_ne_nil _ Nat.toDigits_ne_nil]
      exact ih (n / 10) (by omega) (by omega)

/-! ### Both sides of a point -/

section Split

variable (n places : ℕ)

/-- The digits of `n`, with zeros in front so that one stands before a point. -/
def padded : List Char :=
  List.replicate (places + 1 - (Nat.toDigits 10 n).length) '0' ++ Nat.toDigits 10 n

theorem splitDigits_eq :
    splitDigits n places = (padded n places).splitAt ((padded n places).length - places) := rfl

theorem places_lt_length_padded : places < (padded n places).length := by
  rw [padded, List.length_append, List.length_replicate]
  omega

theorem isDigit_padded : ∀ c ∈ padded n places, c.isDigit := by
  intro c hc
  rcases List.mem_append.mp hc with h | h
  · rw [List.eq_of_mem_replicate h]
    decide
  · exact isDigit_toDigits n c h

theorem natural_padded : natural 0 (padded n places) = n := by
  rw [natural_eq_ofDigitChars (isDigit_padded n places), padded, Nat.ofDigitChars_append,
    Nat.ofDigitChars_replicate_zero, mul_zero, Nat.ofDigitChars_ten_toDigits]

theorem splitDigits_append :
    (splitDigits n places).1 ++ (splitDigits n places).2 = padded n places := by
  rw [splitDigits_eq, List.splitAt_eq, List.take_append_drop]

theorem natural_splitDigits :
    natural (natural 0 (splitDigits n places).1) (splitDigits n places).2 = n := by
  rw [← natural_append, splitDigits_append, natural_padded]

theorem length_splitDigits_snd : (splitDigits n places).2.length = places := by
  have := places_lt_length_padded n places
  rw [splitDigits_eq, List.splitAt_eq, List.length_drop]
  omega

theorem isDigit_splitDigits :
    (∀ c ∈ (splitDigits n places).1, c.isDigit) ∧ ∀ c ∈ (splitDigits n places).2, c.isDigit := by
  have h := isDigit_padded n places
  rw [← splitDigits_append] at h
  exact List.forall_mem_append.mp h

theorem splitDigits_fst_ne_nil : (splitDigits n places).1 ≠ [] := by
  have := places_lt_length_padded n places
  rw [splitDigits_eq, List.splitAt_eq, ← List.length_pos_iff, List.length_take]
  omega

/-- A zero in front of the point stands there alone. -/
theorem length_splitDigits_fst (h : (splitDigits n places).1.head? = some '0') :
    (splitDigits n places).1.length = 1 := by
  have hsome := splitDigits_fst_ne_nil n places
  rw [splitDigits_eq, List.splitAt_eq] at h hsome ⊢
  have hlen : ((padded n places).take ((padded n places).length - places)).length =
      min ((padded n places).length - places) (padded n places).length := List.length_take
  change (List.take _ _).head? = _ at h
  change List.take _ _ ≠ _ at hsome
  change (List.take _ _).length = 1
  have hlt := places_lt_length_padded n places
  rcases Nat.lt_or_ge (Nat.toDigits 10 n).length (places + 1) with hshort | hlong
  · have : (padded n places).length = places + 1 := by
      rw [padded, List.length_append, List.length_replicate]
      omega
    omega
  · -- nothing is padded, so the zero is the first digit of `n`
    have hpadded : padded n places = Nat.toDigits 10 n := by
      rw [padded, Nat.sub_eq_zero_of_le hlong, List.replicate_zero, List.nil_append]
    have hhead : (Nat.toDigits 10 n).head? = some '0' := by
      rw [← h, List.head?_take, if_neg (by omega), hpadded]
    have hzero : n = 0 := by
      by_contra hn
      exact head?_toDigits (Nat.pos_of_ne_zero hn) hhead
    subst hzero
    have hone : (Nat.toDigits 10 0).length = 1 := rfl
    rw [hpadded] at hlen ⊢
    omega

end Split

/-! ### Values -/

/-- The number that a decimal stands for, without its sign. -/
def size (d : Decimal) : ℚ := d.coefficient * 10 ^ d.exponent

theorem strip_size (n : ℕ) (k : ℤ) : ((strip n k).1 : ℚ) * 10 ^ (strip n k).2 = n * 10 ^ k := by
  fun_induction strip n k with
  | case1 => simp
  | case2 n k _ hten ih =>
    have hn : (n : ℚ) = (n / 10 : ℕ) * 10 := by
      exact_mod_cast (Nat.div_mul_cancel (Nat.dvd_of_mod_eq_zero hten)).symm
    rw [ih, hn, zpow_add_one₀ (by norm_num)]
    ring
  | case3 => rfl

@[simp] theorem size_normal (negative : Bool) (n : ℕ) (k : ℤ) :
    (normal negative n k).size = n * 10 ^ k :=
  strip_size n k

/-- The number with `whole` before the point and `fraction` after it. -/
theorem size_assemble (negative : Bool) (whole fraction : List Char) :
    (assemble negative whole fraction 0).size =
      natural (natural 0 whole) fraction / 10 ^ fraction.length := by
  rw [assemble, size_normal, zero_sub, zpow_neg, zpow_natCast, div_eq_mul_inv]

end Decimal

/-! ### Numerals -/

namespace Numeral

open Decimal

/-- At least one digit before the point, with a zero in front only alone; digits after it. -/
structure WellFormed (n : Numeral) : Prop where
  whole_ne_nil : n.whole ≠ []
  whole_digits : ∀ c ∈ n.whole, c.isDigit
  whole_zero : n.whole.head? = some '0' → n.whole.length = 1
  fraction_digits : ∀ c ∈ n.fraction, c.isDigit

theorem wellFormed_ofNat (n : ℕ) : (ofNat n).WellFormed where
  whole_ne_nil := Nat.toDigits_ne_nil
  whole_digits := isDigit_toDigits n
  whole_zero h := by
    rcases Nat.eq_zero_or_pos n with rfl | hn
    · rfl
    · exact absurd h (head?_toDigits hn)
  fraction_digits := List.forall_mem_nil _

theorem wellFormed_positional (d : Decimal) : (positional d).WellFormed where
  whole_ne_nil := splitDigits_fst_ne_nil _ _
  whole_digits := (isDigit_splitDigits ..).1
  whole_zero := length_splitDigits_fst _ _
  fraction_digits := by
    simp only [positional]
    split
    · exact List.forall_mem_singleton.mpr rfl
    · exact (isDigit_splitDigits _ _).2

theorem length_whole_scientific (d : Decimal) : (scientific d).whole.length = 1 :=
  List.length_take_of_le Nat.length_toDigits_pos

theorem wellFormed_scientific (d : Decimal) : (scientific d).WellFormed where
  whole_ne_nil := List.ne_nil_of_length_eq_add_one (length_whole_scientific d)
  whole_digits c hc := isDigit_toDigits _ c (List.mem_of_mem_take hc)
  whole_zero _ := length_whole_scientific d
  fraction_digits c hc := isDigit_toDigits _ c (List.mem_of_mem_drop hc)

theorem wellFormed_ofDecimal (d : Decimal) : (ofDecimal d).WellFormed := by
  unfold ofDecimal
  dsimp only
  split
  · exact wellFormed_positional d
  · exact wellFormed_scientific d

/-- A natural is read as it was written. -/
theorem natural?_ofNat (n : ℕ) : (ofNat n).natural? = some n :=
  congrArg some (natural_toDigits n)

theorem negative_ofDecimal (d : Decimal) : (ofDecimal d).value.negative = d.negative := by
  unfold ofDecimal
  dsimp only
  split <;> rfl

theorem size_positional (d : Decimal) : (positional d).value.size = d.size := by
  set n := d.coefficient * tenTo d.exponent.toNat with hn
  set places := (-d.exponent).toNat with hplaces
  have hsize : d.size = n / 10 ^ places := by
    rw [size, hn, hplaces, ← zpow_natCast, div_eq_mul_inv, ← zpow_neg, Nat.cast_mul, tenTo,
      Nat.pow_eq, Nat.cast_pow, Nat.cast_ofNat, ← zpow_natCast, mul_assoc,
      ← zpow_add₀ (by norm_num)]
    congr 2
    omega
  have hlen := length_splitDigits_snd n places
  have hvalue := natural_splitDigits n places
  have hfields : (positional d).value = assemble d.negative (splitDigits n places).1
      (if (splitDigits n places).2.isEmpty then ['0'] else (splitDigits n places).2) 0 := rfl
  rw [hsize, hfields, size_assemble]
  split
  · -- no digits after the point: the zero there multiplies by ten and divides again
    rename_i hempty
    rw [List.isEmpty_iff.mp hempty] at hlen hvalue
    have hten : natural (natural 0 (splitDigits n places).1) ['0'] = 10 * n :=
      congrArg (10 * ·) hvalue
    rw [hten, ← hlen, List.length_nil, pow_zero, div_one, List.length_singleton, pow_one]
    push_cast
    ring
  · rw [hvalue, hlen]

theorem size_scientific (d : Decimal) : (scientific d).value.size = d.size := by
  have hvalue : natural (natural 0 (scientific d).whole) (scientific d).fraction = d.coefficient := by
    rw [← natural_append]
    exact (congrArg (natural 0) (List.take_append_drop ..)).trans (natural_toDigits _)
  have hplace : d.exponent + (scientific d).fraction.length - (scientific d).fraction.length =
      d.exponent := add_sub_cancel_right _ _
  rw [value, assemble, size_normal, hvalue]
  exact congrArg (fun place : ℤ => (d.coefficient : ℚ) * 10 ^ place) hplace

/-- **The numeral of a decimal has its value.** -/
theorem size_ofDecimal (d : Decimal) : (ofDecimal d).value.size = d.size := by
  unfold ofDecimal
  dsimp only
  split
  · exact size_positional d
  · exact size_scientific d

/-- The least power of ten without an exponent, and what comes before and after such numbers. -/
example : [(1, -5), (1, -6), (9999999999999999, 0), (1, 16), (25, -8)].map
    (fun (n, k) => String.ofList (ofDecimal ⟨false, n, k⟩).text) =
      ["0.00001", "1e-6", "9999999999999999.0", "1e16", "2.5e-7"] := by decide

end Numeral
end GateCircuit
