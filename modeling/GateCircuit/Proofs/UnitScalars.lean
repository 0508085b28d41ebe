/-
# Units of scalars

A product or a sum of doubles is rounded, but not if each of them is minus one, zero or one and the result
is one of these again. So what is computed with such scalars is exact, over doubles as over real numbers,
but for the signs of zeros, which no comparison sees. An amplitude of which one part is such a scalar and
the other part is zero stands for a complex number; products of such amplitudes stand for the products of
the numbers, and sums for the sums if at most one summand is not zero.

Key definitions: `Scalar.Counts`, `ExactUnits`, `Amplitude.Denotes`. Instances: `ExactUnits ℝ`,
`ExactUnits Float`.
Key theorems: `Denotes.mul`, `Denotes.beq_iff`, `denotes_foldl_mul`, `denotes_sum`.
-/
import Mathlib
import GateCircuit.Proofs.DoubleOrder
import GateCircuit.Proofs.Exact

namespace GateCircuit

/-- A scalar is the integer `n`, one of minus one, zero and one, as far as comparisons tell. -/
def Scalar.Counts {R : Type} [Scalar R] (x : R) (n : ℤ) : Prop :=
  (n = 0 ∧ (x == 0) = true) ∨ (n = 1 ∧ (x == 1) = true) ∨ (n = -1 ∧ (x == -1) = true)

instance {R : Type} [Scalar R] (x : R) (n : ℤ) : Decidable (Scalar.Counts x n) := by
  unfold Scalar.Counts
  infer_instance

open Scalar

/-- Scalars that compute with minus one, zero and one as integers do. -/
class ExactUnits (R : Type) [Scalar R] : Prop where
  zero : Counts (0 : R) 0
  one : Counts (1 : R) 1
  neg : ∀ {x : R} {n : ℤ}, Counts x n → Counts (-x) (-n)
  add : ∀ {x y : R} {m n : ℤ}, Counts x m → Counts y n → |m + n| ≤ 1 → Counts (x + y) (m + n)
  sub : ∀ {x y : R} {m n : ℤ}, Counts x m → Counts y n → |m - n| ≤ 1 → Counts (x - y) (m - n)
  mul : ∀ {x y : R} {m n : ℤ}, Counts x m → Counts y n → Counts (x * y) (m * n)
  beq_iff : ∀ {x y : R} {m n : ℤ}, Counts x m → Counts y n → ((x == y) = true ↔ m = n)

theorem Scalar.Counts.abs_le {R : Type} [Scalar R] {x : R} {n : ℤ} (h : Counts x n) : |n| ≤ 1 := by
  rcases h with ⟨rfl, -⟩ | ⟨rfl, -⟩ | ⟨rfl, -⟩ <;> decide

/-! ### Real numbers -/

theorem counts_real {x : ℝ} {n : ℤ} : Counts x n ↔ x = n ∧ |n| ≤ 1 := by
  have hbeq : ∀ y : ℝ, (x == y) = true ↔ x = y := fun y => decide_eq_true_iff
  have hunit : |n| ≤ 1 ↔ n = 0 ∨ n = 1 ∨ n = -1 := by
    rw [abs_le]
    omega
  simp only [Counts, hbeq, hunit]
  constructor
  · rintro (⟨rfl, h⟩ | ⟨rfl, h⟩ | ⟨rfl, h⟩) <;> simp [h]
  · rintro ⟨rfl, rfl | rfl | rfl⟩ <;> simp

instance exactUnits_real : ExactUnits ℝ where
  zero := counts_real.mpr (by simp)
  one := counts_real.mpr (by simp)
  neg := by
    simp only [counts_real]
    rintro x n ⟨rfl, hn⟩
    exact ⟨by push_cast; rfl, by rwa [abs_neg]⟩
  add := by
    simp only [counts_real]
    rintro x y m n ⟨rfl, -⟩ ⟨rfl, -⟩ hsum
    exact ⟨by push_cast; rfl, hsum⟩
  sub := by
    simp only [counts_real]
    rintro x y m n ⟨rfl, -⟩ ⟨rfl, -⟩ hsum
    exact ⟨by push_cast; rfl, hsum⟩
  mul := by
    simp only [counts_real]
    rintro x y m n ⟨rfl, hm⟩ ⟨rfl, hn⟩
    refine ⟨by push_cast; rfl, ?_⟩
    rw [abs_mul]
    exact mul_le_one₀ hm (abs_nonneg n) hn
  beq_iff := by
    simp only [counts_real]
    rintro x y m n ⟨rfl, -⟩ ⟨rfl, -⟩
    exact decide_eq_true_iff.trans Int.cast_inj

/-! ### Doubles -/

namespace Double

/-- The doubles that stand for an integer. -/
def units : List (Float × ℤ) := [(0.0, 0), (-0.0, 0), (1.0, 1), (-1.0, -1)]

theorem eq_of_beq_unit {x y : Float} (hy : (y == 0.0) = false) (h : (x == y) = true) : x = y := by
  rcases Double.eq_of_beq h with rfl | ⟨-, hzero⟩
  · rfl
  · have hequal : (y == 0.0) = true := by
      rcases hzero with rfl | rfl <;> decide +kernel
    rw [hy] at hequal
    cases hequal

/-- Only four doubles stand for an integer, so each law is a check of these. -/
theorem mem_units {x : Float} {n : ℤ} (h : Counts x n) : (x, n) ∈ units := by
  rcases h with ⟨rfl, h⟩ | ⟨rfl, h⟩ | ⟨rfl, h⟩
  · have hzero : x = 0.0 ∨ x = -0.0 := by
      rcases Double.eq_of_beq h with rfl | ⟨hx, -⟩
      · exact .inl rfl
      · exact hx
    rcases hzero with rfl | rfl
    · exact List.mem_cons_self
    · exact List.mem_cons_of_mem _ List.mem_cons_self
  · rw [eq_of_beq_unit (by decide +kernel) h]
    exact List.mem_of_getElem? (i := 2) rfl
  · rw [eq_of_beq_unit (by decide +kernel) h]
    exact List.mem_of_getElem? (i := 3) rfl

end Double

instance exactUnits_double : ExactUnits Float where
  zero := by decide +kernel
  one := by decide +kernel
  neg := by
    have hall : ∀ p ∈ Double.units, Counts (-p.1) (-p.2) := by decide +kernel
    intro x n hx
    exact hall (x, n) (Double.mem_units hx)
  add := by
    have hall : ∀ p ∈ Double.units, ∀ q ∈ Double.units, |p.2 + q.2| ≤ 1 →
        Counts (p.1 + q.1) (p.2 + q.2) := by decide +kernel
    intro x y m n hx hy
    exact hall (x, m) (Double.mem_units hx) (y, n) (Double.mem_units hy)
  sub := by
    have hall : ∀ p ∈ Double.units, ∀ q ∈ Double.units, |p.2 - q.2| ≤ 1 →
        Counts (p.1 - q.1) (p.2 - q.2) := by decide +kernel
    intro x y m n hx hy
    exact hall (x, m) (Double.mem_units hx) (y, n) (Double.mem_units hy)
  mul := by
    have hall : ∀ p ∈ Double.units, ∀ q ∈ Double.units, Counts (p.1 * q.1) (p.2 * q.2) := by
      decide +kernel
    intro x y m n hx hy
    exact hall (x, m) (Double.mem_units hx) (y, n) (Double.mem_units hy)
  beq_iff := by
    have hall : ∀ p ∈ Double.units, ∀ q ∈ Double.units, (p.1 == q.1) = true ↔ p.2 = q.2 := by
      decide +kernel
    intro x y m n hx hy
    exact hall (x, m) (Double.mem_units hx) (y, n) (Double.mem_units hy)

/-! ### Amplitudes -/

section Amplitudes

variable {R : Type} [Scalar R]

/-- An amplitude is the number `z`, one of zero, one, the imaginary unit and the opposites of these two. -/
def Amplitude.Denotes (a : Amplitude R) (z : ℂ) : Prop :=
  ∃ m n : ℤ, Counts a.re m ∧ Counts a.im n ∧ (m = 0 ∨ n = 0) ∧ z = ⟨m, n⟩

variable [ExactUnits R] {a b : Amplitude R} {z w : ℂ}

namespace Amplitude.Denotes

theorem zero : Denotes (0 : Amplitude R) 0 :=
  ⟨0, 0, ExactUnits.zero, ExactUnits.zero, .inl rfl, by simp [Complex.ext_iff]⟩

theorem one : Denotes (1 : Amplitude R) 1 :=
  ⟨1, 0, ExactUnits.one, ExactUnits.zero, .inr rfl, by simp [Complex.ext_iff]⟩

theorem imaginaryUnit : Denotes (I : Amplitude R) Complex.I :=
  ⟨0, 1, ExactUnits.zero, ExactUnits.one, .inl rfl, by simp [Complex.ext_iff]⟩

theorem neg (ha : Denotes a z) : Denotes (-a) (-z) := by
  obtain ⟨m, n, hm, hn, hmn, rfl⟩ := ha
  refine ⟨-m, -n, ExactUnits.neg hm, ExactUnits.neg hn, by omega, ?_⟩
  simp [Complex.ext_iff]

theorem conj (ha : Denotes a z) : Denotes a.conj (starRingEnd ℂ z) := by
  obtain ⟨m, n, hm, hn, hmn, rfl⟩ := ha
  refine ⟨m, -n, hm, ExactUnits.neg hn, by omega, ?_⟩
  simp [Complex.ext_iff]

theorem mul (ha : Denotes a z) (hb : Denotes b w) : Denotes (a * b) (z * w) := by
  obtain ⟨m, n, hm, hn, hmn, rfl⟩ := ha
  obtain ⟨p, q, hp, hq, hpq, rfl⟩ := hb
  have hmp := ExactUnits.mul hm hp
  have hnq := ExactUnits.mul hn hq
  have hmq := ExactUnits.mul hm hq
  have hnp := ExactUnits.mul hn hp
  have hzero : ∀ {i j : ℤ}, i = 0 ∨ j = 0 → |i| ≤ 1 → |j| ≤ 1 → |i - j| ≤ 1 ∧ |i + j| ≤ 1 := by
    rintro i j (rfl | rfl) hi hj
    · rw [zero_sub, abs_neg, zero_add]
      exact ⟨hj, hj⟩
    · rw [sub_zero, add_zero]
      exact ⟨hi, hi⟩
  have hsub : m * p = 0 ∨ n * q = 0 := by
    rcases hmn with rfl | rfl <;> simp
  have hadd : m * q = 0 ∨ n * p = 0 := by
    rcases hmn with rfl | rfl <;> simp
  refine ⟨m * p - n * q, m * q + n * p, ExactUnits.sub hmp hnq (hzero hsub hmp.abs_le hnq.abs_le).1,
    ExactUnits.add hmq hnp (hzero hadd hmq.abs_le hnp.abs_le).2, ?_, ?_⟩
  · rcases hmn with rfl | rfl <;> rcases hpq with rfl | rfl <;> simp
  · simp [Complex.ext_iff]

/-- A sum is exact if one of the two is zero. -/
theorem add (ha : Denotes a z) (hb : Denotes b w) (hzero : z = 0 ∨ w = 0) : Denotes (a + b) (z + w) := by
  obtain ⟨m, n, hm, hn, hmn, rfl⟩ := ha
  obtain ⟨p, q, hp, hq, hpq, rfl⟩ := hb
  simp only [Complex.ext_iff, Complex.zero_re, Complex.zero_im, Int.cast_eq_zero] at hzero
  refine ⟨m + p, n + q, ExactUnits.add hm hp ?_, ExactUnits.add hn hq ?_, by omega, ?_⟩
  · rcases hzero with ⟨rfl, -⟩ | ⟨rfl, -⟩
    · simpa using hp.abs_le
    · simpa using hm.abs_le
  · rcases hzero with ⟨-, rfl⟩ | ⟨-, rfl⟩
    · simpa using hq.abs_le
    · simpa using hn.abs_le
  · simp [Complex.ext_iff]

/-- Amplitudes compare as equal exactly if their numbers are equal. -/
theorem beq_iff (ha : Denotes a z) (hb : Denotes b w) : (a == b) = true ↔ z = w := by
  obtain ⟨m, n, hm, hn, -, rfl⟩ := ha
  obtain ⟨p, q, hp, hq, -, rfl⟩ := hb
  have hparts : (a == b) = (a.re == b.re && a.im == b.im) := rfl
  rw [hparts, Bool.and_eq_true, ExactUnits.beq_iff hm hp, ExactUnits.beq_iff hn hq]
  simp [Complex.ext_iff]

theorem isZero_iff (ha : Denotes a z) : a.isZero = true ↔ z = 0 := beq_iff ha zero

end Amplitude.Denotes

open Amplitude

/-- A product of such amplitudes stands for the product of the numbers. -/
theorem denotes_foldl_mul {as : List (Amplitude R)} {zs : List ℂ} (h : List.Forall₂ Denotes as zs) :
    ∀ {a : Amplitude R} {z : ℂ}, Denotes a z → Denotes (as.foldl (· * ·) a) (z * zs.prod) := by
  induction h with
  | nil =>
    intro a z ha
    rwa [List.prod_nil, mul_one]
  | cons hb _ ih =>
    intro a z ha
    rw [List.foldl_cons, List.prod_cons, ← mul_assoc]
    exact ih (ha.mul hb)

/-- A sum of such amplitudes, at most one of which is not zero, stands for the sum of the numbers. -/
theorem denotes_foldl_add {as : List (Amplitude R)} {zs : List ℂ} (h : List.Forall₂ Denotes as zs) :
    ∀ {a : Amplitude R} {z : ℂ}, Denotes a z → (z :: zs).Pairwise (fun u v => u = 0 ∨ v = 0) →
      Denotes (as.foldl (· + ·) a) (z + zs.sum) := by
  induction h with
  | nil =>
    intro a z ha _
    rwa [List.sum_nil, add_zero]
  | @cons b w as zs hb _ ih =>
    intro a z ha hone
    obtain ⟨hz, hw, hzs⟩ : (∀ v ∈ w :: zs, z = 0 ∨ v = 0) ∧ (∀ v ∈ zs, w = 0 ∨ v = 0) ∧
        zs.Pairwise fun u v => u = 0 ∨ v = 0 := by
      rw [List.pairwise_cons, List.pairwise_cons] at hone
      exact ⟨hone.1, hone.2⟩
    rw [List.foldl_cons, List.sum_cons, ← add_assoc]
    refine ih (ha.add hb (hz w List.mem_cons_self)) (List.pairwise_cons.mpr ⟨fun v hv => ?_, hzs⟩)
    -- the sum so far is zero if both summands are
    rcases hz v (List.mem_cons_of_mem w hv) with hz | hv0
    · rcases hw v hv with hw | hv0
      · exact .inl (by rw [hz, hw, add_zero])
      · exact .inr hv0
    · exact .inr hv0

theorem denotes_sum {as : List (Amplitude R)} {zs : List ℂ} (h : List.Forall₂ Denotes as zs)
    (hone : zs.Pairwise fun u v => u = 0 ∨ v = 0) : Denotes (Amplitude.sum as) zs.sum := by
  have hsum := denotes_foldl_add h Denotes.zero (List.pairwise_cons.mpr ⟨fun _ _ => .inl rfl, hone⟩)
  rwa [zero_add] at hsum

end Amplitudes

end GateCircuit
