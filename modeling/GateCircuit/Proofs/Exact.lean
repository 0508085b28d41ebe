/-
# Exact scalars

Real numbers are scalars whose operations do not round. Over them an amplitude is a complex number,
and the arithmetic of amplitudes is the arithmetic of complex numbers, so a statement about exact
arithmetic is made over `ℝ` and proved in `ℂ`.

Key definition: `Amplitude.toComplex`. Instance: `Scalar ℝ`.
Key theorems: `Amplitude.toComplex_injective`, `Amplitude.toComplex_mul`, `Amplitude.isZero_iff`.
-/
import Mathlib
import GateCircuit.Amplitude

namespace GateCircuit

/-- The numeral two is found at once, with one proof for all modules. -/
instance atLeastTwo_two : Nat.AtLeastTwo 2 := inferInstance

noncomputable instance : Scalar ℝ where
  toZero := inferInstance
  toOne := inferInstance
  toAdd := inferInstance
  toSub := inferInstance
  toMul := inferInstance
  toDiv := inferInstance
  toNeg := inferInstance
  beq x y := decide (x = y)
  ofNat n := n
  pi := Real.pi
  sqrt := Real.sqrt
  sin := Real.sin
  cos := Real.cos
  abs x := |x|
  hypotenuse x y := Real.sqrt (x * x + y * y)
  less x y := decide (x < y)
  atMost x y := decide (x ≤ y)
  isNaN _ := false
  ceil x := ⌈x⌉
  toCount x := min ⌊x⌋₊ maxCount
  tolerance := 1 / 10 ^ 12

theorem scalar_half (x : ℝ) : Scalar.half x = x / 2 := by
  change x / ((2 : ℕ) : ℝ) = x / 2
  norm_num

namespace Amplitude

/-- The complex number that an amplitude with exact parts is. -/
def toComplex (a : Amplitude ℝ) : ℂ := ⟨a.re, a.im⟩

theorem toComplex_injective : Function.Injective toComplex := by
  intro a b h
  cases a
  cases b
  simpa [toComplex] using h

@[simp] theorem toComplex_zero : (0 : Amplitude ℝ).toComplex = 0 := rfl

@[simp] theorem toComplex_one : (1 : Amplitude ℝ).toComplex = 1 := rfl

@[simp] theorem toComplex_I : (I : Amplitude ℝ).toComplex = Complex.I := rfl

@[simp] theorem toComplex_add (a b : Amplitude ℝ) :
    (a + b).toComplex = a.toComplex + b.toComplex := rfl

@[simp] theorem toComplex_neg (a : Amplitude ℝ) : (-a).toComplex = -a.toComplex := rfl

@[simp] theorem toComplex_mul (a b : Amplitude ℝ) :
    (a * b).toComplex = a.toComplex * b.toComplex := by
  apply Complex.ext <;> rfl

@[simp] theorem toComplex_conj (a : Amplitude ℝ) :
    a.conj.toComplex = starRingEnd ℂ a.toComplex := rfl

@[simp] theorem normSq_toComplex (a : Amplitude ℝ) : Complex.normSq a.toComplex = a.normSq := rfl

theorem toComplex_sum (as : List (Amplitude ℝ)) :
    (sum as).toComplex = (as.map toComplex).sum := by
  have key : ∀ (as : List (Amplitude ℝ)) (a : Amplitude ℝ),
      (as.foldl (· + ·) a).toComplex = a.toComplex + (as.map toComplex).sum := by
    intro as
    induction as with
    | nil =>
      intro a
      simp
    | cons b as ih =>
      intro a
      rw [List.foldl_cons, ih, toComplex_add, List.map_cons, List.sum_cons, add_assoc]
  rw [sum, key, toComplex_zero, zero_add]

/-- An amplitude without imaginary part is a real number. -/
theorem toComplex_real (x : ℝ) : (⟨x, 0⟩ : Amplitude ℝ).toComplex = x := rfl

/-- An amplitude without real part is a multiple of the imaginary unit. -/
theorem toComplex_imaginary (x : ℝ) : (⟨0, x⟩ : Amplitude ℝ).toComplex = x * Complex.I := by
  apply Complex.ext <;> simp [toComplex]

/-- Adding a real number changes the real part only. -/
theorem toComplex_addReal (a : Amplitude ℝ) (x : ℝ) :
    (⟨a.re + x, a.im⟩ : Amplitude ℝ).toComplex = a.toComplex + x := by
  apply Complex.ext <;> simp [toComplex]

theorem isZero_iff (a : Amplitude ℝ) : a.isZero = true ↔ a.toComplex = 0 := by
  have h : a.isZero = (decide (a.re = 0) && decide (a.im = 0)) := rfl
  rw [h, Complex.ext_iff]
  simp [toComplex]

end Amplitude
end GateCircuit
