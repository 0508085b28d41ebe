/-
# The matrices of the named gates

Over exact scalars the entries of a named gate spell a matrix of complex numbers. All of these but the
two projections are unitary, for all angles; the projections are diagonal with entries zero and one.

Key definitions: `OneQubitGate.toMatrix`, `swapMatrix`.
Key theorems: `entriesMatrix_oneQubit`, `oneQubit_unitary`, `named_unitary`.
-/
import Mathlib
import GateCircuit.Gate.Named
import GateCircuit.Proofs.MatrixOperator

namespace GateCircuit

open scoped ComplexConjugate Matrix

/-! ### Exact entries -/

namespace Amplitude

theorem toComplex_ofReal (x : ℝ) : (ofReal x).toComplex = x := rfl

theorem toComplex_polar (radius angle : ℝ) :
    (polar radius angle).toComplex = radius * Complex.exp (angle * Complex.I) := by
  rw [Complex.exp_mul_I]
  apply Complex.ext <;> simp [polar, toComplex, Scalar.cos, Scalar.sin, ← Complex.ofReal_cos,
    ← Complex.ofReal_sin]

/-- An amplitude is the sum of its real part and its imaginary part. -/
theorem toComplex_parts (x y : ℝ) : (⟨x, y⟩ : Amplitude ℝ).toComplex = x + y * Complex.I :=
  Complex.mk_eq_add_mul_I x y

end Amplitude

theorem scalar_quarterPi : (Scalar.quarterPi : ℝ) = Real.pi / 4 := by
  change Real.pi / ((4 : ℕ) : ℝ) = Real.pi / 4
  norm_num

theorem scalar_sqrtHalf : (Scalar.sqrtHalf : ℝ) = √(1 / 2) := by
  rw [Scalar.sqrtHalf, scalar_half]
  rfl

namespace OneQubitGate

/-- The matrix of `u3`. -/
noncomputable def u3ToMatrix (theta phi lambda : ℝ) : Matrix (Fin 2) (Fin 2) ℂ :=
  !![(Real.cos (theta / 2) : ℂ), -(Real.sin (theta / 2) * Complex.exp (lambda * Complex.I));
    Real.sin (theta / 2) * Complex.exp (phi * Complex.I),
    Real.cos (theta / 2) * Complex.exp ((phi + lambda : ℝ) * Complex.I)]

/-- The matrix of a gate over the complex numbers. -/
noncomputable def toMatrix : OneQubitGate ℝ → Matrix (Fin 2) (Fin 2) ℂ
  | id => Pauli.I.toMatrix
  | x => Pauli.X.toMatrix
  | y => Pauli.Y.toMatrix
  | z => Pauli.Z.toMatrix
  | h => !![(√(1 / 2) : ℂ), (√(1 / 2) : ℂ); (√(1 / 2) : ℂ), -(√(1 / 2) : ℂ)]
  | s => !![1, 0; 0, Complex.I]
  | sdg => !![1, 0; 0, -Complex.I]
  | sx => !![(1 + Complex.I) / 2, (1 - Complex.I) / 2; (1 - Complex.I) / 2, (1 + Complex.I) / 2]
  | sxdg => !![(1 - Complex.I) / 2, (1 + Complex.I) / 2; (1 + Complex.I) / 2, (1 - Complex.I) / 2]
  | sy => !![(1 + Complex.I) / 2, -((1 + Complex.I) / 2); (1 + Complex.I) / 2, (1 + Complex.I) / 2]
  | sydg => !![(1 - Complex.I) / 2, (1 - Complex.I) / 2; -((1 - Complex.I) / 2), (1 - Complex.I) / 2]
  | t => !![1, 0; 0, Complex.exp ((Real.pi / 4 : ℝ) * Complex.I)]
  | tdg => !![1, 0; 0, Complex.exp ((-(Real.pi / 4) : ℝ) * Complex.I)]
  | p0 => Matrix.diagonal ![1, 0]
  | p1 => Matrix.diagonal ![0, 1]
  | rx angle =>
    !![(Real.cos (angle / 2) : ℂ), -(Real.sin (angle / 2) * Complex.I);
      -(Real.sin (angle / 2) * Complex.I), (Real.cos (angle / 2) : ℂ)]
  | ry angle =>
    !![(Real.cos (angle / 2) : ℂ), -(Real.sin (angle / 2) : ℂ);
      (Real.sin (angle / 2) : ℂ), (Real.cos (angle / 2) : ℂ)]
  | rz angle =>
    !![Complex.exp ((-angle / 2 : ℝ) * Complex.I), 0; 0, Complex.exp ((angle / 2 : ℝ) * Complex.I)]
  | u1 lambda => !![1, 0; 0, Complex.exp (lambda * Complex.I)]
  | u2 phi lambda => u3ToMatrix (Real.pi / 2) phi lambda
  | u3 theta phi lambda => u3ToMatrix theta phi lambda

theorem entriesMatrix_u3 (theta phi lambda : ℝ) :
    entriesMatrix 2 (u3Matrix theta phi lambda) = u3ToMatrix theta phi lambda := by
  simp only [u3Matrix, u3ToMatrix, entriesMatrix_two, Amplitude.toComplex_ofReal,
    Amplitude.toComplex_neg, Amplitude.toComplex_polar, scalar_half, Scalar.cos, Scalar.sin]

end OneQubitGate

/-- **The entries of a gate spell its matrix.** -/
theorem entriesMatrix_oneQubit (gate : OneQubitGate ℝ) :
    entriesMatrix 2 gate.matrix = gate.toMatrix := by
  cases gate with
  | id => exact entriesMatrix_pauli .I
  | x => exact entriesMatrix_pauli .X
  | y => exact entriesMatrix_pauli .Y
  | z => exact entriesMatrix_pauli .Z
  | u2 phi lambda =>
    rw [OneQubitGate.matrix, OneQubitGate.entriesMatrix_u3, scalar_half]
    rfl
  | u3 theta phi lambda => exact OneQubitGate.entriesMatrix_u3 theta phi lambda
  | h | s | sdg =>
    simp [OneQubitGate.matrix, OneQubitGate.toMatrix, entriesMatrix_two, scalar_sqrtHalf,
      Amplitude.toComplex_ofReal]
  | sx | sxdg | sy | sydg =>
    ext row col
    fin_cases row <;> fin_cases col <;>
      simp [OneQubitGate.matrix, OneQubitGate.toMatrix, entriesMatrix_two, scalar_half,
        Amplitude.toComplex_parts] <;> ring
  | p0 | p1 =>
    ext row col
    fin_cases row <;> fin_cases col <;>
      simp [OneQubitGate.matrix, OneQubitGate.toMatrix, entriesMatrix_two]
  | rx | ry =>
    simp [OneQubitGate.matrix, OneQubitGate.toMatrix, entriesMatrix_two, scalar_half,
      Amplitude.toComplex_parts, Scalar.cos, Scalar.sin]
  | t | tdg | rz | u1 =>
    simp [OneQubitGate.matrix, OneQubitGate.toMatrix, entriesMatrix_two, scalar_half,
      scalar_quarterPi, Amplitude.toComplex_polar]

/-! ### Unitary matrices -/

/-- A matrix of two rows is unitary if its columns have length one and are orthogonal. -/
theorem unitary_two {a b c d : ℂ} (hfirst : conj a * a + conj c * c = 1)
    (hsecond : conj b * b + conj d * d = 1) (hcross : conj a * b + conj c * d = 0) :
    (!![a, b; c, d])ᴴ * !![a, b; c, d] = 1 := by
  have hcross' : conj b * a + conj d * c = 0 := by
    have := congrArg conj hcross
    simpa [mul_comm] using this
  ext row col
  fin_cases row <;> fin_cases col <;>
    simpa [Matrix.mul_apply, Fin.sum_univ_two, Matrix.conjTranspose_apply]

/-- A phase on the upper basis state. -/
theorem unitary_phase {a b : ℂ} (ha : conj a * a = 1) (hb : conj b * b = 1) :
    (!![a, 0; 0, b])ᴴ * !![a, 0; 0, b] = 1 :=
  unitary_two (by simp [ha]) (by simp [hb]) (by simp)

theorem conj_exp_mul_exp (x : ℝ) :
    conj (Complex.exp (x * Complex.I)) * Complex.exp (x * Complex.I) = 1 := by
  rw [← Complex.exp_conj, map_mul, Complex.conj_I, Complex.conj_ofReal, ← Complex.exp_add, mul_neg,
    neg_add_cancel, Complex.exp_zero]

theorem cos_mul_cos_add (x : ℝ) :
    (Real.cos x * Real.cos x + Real.sin x * Real.sin x : ℂ) = 1 := by
  rw [← Complex.ofReal_mul, ← Complex.ofReal_mul, ← Complex.ofReal_add, ← sq, ← sq,
    Real.cos_sq_add_sin_sq, Complex.ofReal_one]

theorem sqrt_half_mul_self : ((√(1 / 2) : ℝ) : ℂ) * ((√(1 / 2) : ℝ) : ℂ) = 1 / 2 := by
  rw [← Complex.ofReal_mul, Real.mul_self_sqrt (by norm_num)]
  norm_num

/-- The two halves of a square root: `(1 + i) / 2` and its conjugate. -/
theorem conj_half_one_add_I : conj ((1 + Complex.I) / 2) = (1 - Complex.I) / 2 := by
  simp [map_div₀, map_ofNat, sub_eq_add_neg]

theorem conj_half_one_sub_I : conj ((1 - Complex.I) / 2) = (1 + Complex.I) / 2 := by
  simp [map_div₀, map_ofNat]

theorem pauli_unitary (p : Pauli) : p.toMatrixᴴ * p.toMatrix = 1 := by
  cases p with
  | I => simp [Pauli.toMatrix]
  | X => exact unitary_two (by simp) (by simp) (by simp)
  | Y => exact unitary_two (by simp) (by simp) (by simp)
  | Z => exact unitary_phase (by simp) (by simp)

namespace OneQubitGate

theorem u3_unitary (theta phi lambda : ℝ) :
    (u3ToMatrix theta phi lambda)ᴴ * u3ToMatrix theta phi lambda = 1 := by
  have hone := cos_mul_cos_add (theta / 2)
  have hphi := conj_exp_mul_exp phi
  have hlambda := conj_exp_mul_exp lambda
  have hsum := conj_exp_mul_exp (phi + lambda)
  have hsplit : Complex.exp ((phi + lambda : ℝ) * Complex.I) =
      Complex.exp (phi * Complex.I) * Complex.exp (lambda * Complex.I) := by
    rw [← Complex.exp_add]
    congr 1
    push_cast
    ring
  refine unitary_two ?_ ?_ ?_
  · simp only [map_mul, Complex.conj_ofReal]
    linear_combination hone + (Real.sin (theta / 2) : ℂ) ^ 2 * hphi
  · simp only [map_neg, map_mul, Complex.conj_ofReal]
    linear_combination hone + (Real.sin (theta / 2) : ℂ) ^ 2 * hlambda +
      (Real.cos (theta / 2) : ℂ) ^ 2 * hsum
  · simp only [map_mul, Complex.conj_ofReal, hsplit]
    linear_combination (Real.sin (theta / 2) * Real.cos (theta / 2) *
      Complex.exp (lambda * Complex.I) : ℂ) * hphi

end OneQubitGate

/-- **All one-qubit gates but the projections are unitary**, for all angles. -/
theorem oneQubit_unitary {gate : OneQubitGate ℝ} (h₀ : gate ≠ .p0) (h₁ : gate ≠ .p1) :
    gate.toMatrixᴴ * gate.toMatrix = 1 := by
  cases gate with
  | id => exact pauli_unitary .I
  | x => exact pauli_unitary .X
  | y => exact pauli_unitary .Y
  | z => exact pauli_unitary .Z
  | h =>
    have hhalf := sqrt_half_mul_self
    refine unitary_two ?_ ?_ ?_
    all_goals
      simp only [map_neg, Complex.conj_ofReal]
    · linear_combination 2 * hhalf
    · linear_combination 2 * hhalf
    · ring
  | s => exact unitary_phase (by simp) (by simp)
  | sdg => exact unitary_phase (by simp) (by simp)
  | sx | sxdg =>
    refine unitary_two ?_ ?_ ?_
    all_goals
      simp only [conj_half_one_add_I, conj_half_one_sub_I]
    · linear_combination -(1 / 2 : ℂ) * Complex.I_sq
    · linear_combination -(1 / 2 : ℂ) * Complex.I_sq
    · linear_combination (1 / 2 : ℂ) * Complex.I_sq
  | sy | sydg =>
    refine unitary_two ?_ ?_ ?_
    all_goals
      simp only [map_neg, conj_half_one_add_I, conj_half_one_sub_I]
    · linear_combination -(1 / 2 : ℂ) * Complex.I_sq
    · linear_combination -(1 / 2 : ℂ) * Complex.I_sq
    · ring
  | t => exact unitary_phase (by simp) (conj_exp_mul_exp _)
  | tdg => exact unitary_phase (by simp) (conj_exp_mul_exp _)
  | p0 => exact absurd rfl h₀
  | p1 => exact absurd rfl h₁
  | rx angle =>
    have hone := cos_mul_cos_add (angle / 2)
    refine unitary_two ?_ ?_ ?_
    all_goals
      simp only [map_neg, map_mul, Complex.conj_ofReal, Complex.conj_I]
    · linear_combination hone - (Real.sin (angle / 2) : ℂ) ^ 2 * Complex.I_sq
    · linear_combination hone - (Real.sin (angle / 2) : ℂ) ^ 2 * Complex.I_sq
    · ring
  | ry angle =>
    have hone := cos_mul_cos_add (angle / 2)
    refine unitary_two ?_ ?_ ?_
    all_goals
      simp only [map_neg, Complex.conj_ofReal]
    · linear_combination hone
    · linear_combination hone
    · ring
  | rz angle => exact unitary_phase (conj_exp_mul_exp _) (conj_exp_mul_exp _)
  | u1 lambda => exact unitary_phase (by simp) (conj_exp_mul_exp _)
  | u2 phi lambda => exact OneQubitGate.u3_unitary _ phi lambda
  | u3 theta phi lambda => exact OneQubitGate.u3_unitary theta phi lambda

/-- The matrix that exchanges the two bits of its index. -/
noncomputable def swapMatrix : Matrix (Fin 4) (Fin 4) ℂ :=
  !![1, 0, 0, 0; 0, 0, 1, 0; 0, 1, 0, 0; 0, 0, 0, 1]

theorem entriesMatrix_swap : entriesMatrix 4 (NamedGate.swap : NamedGate ℝ).matrix = swapMatrix := by
  ext row col
  fin_cases row <;> fin_cases col <;> rfl

theorem swap_unitary : swapMatrixᴴ * swapMatrix = 1 := by
  ext row col
  fin_cases row <;> fin_cases col <;>
    simp [swapMatrix, Matrix.mul_apply, Fin.sum_univ_four, Matrix.conjTranspose_apply]

/-- **All named gates but the projections are unitary.** -/
theorem named_unitary (gate : NamedGate ℝ) (h₀ : gate ≠ .single .p0) (h₁ : gate ≠ .single .p1) :
    (entriesMatrix (2 ^ gate.targetCount) gate.matrix)ᴴ *
      entriesMatrix (2 ^ gate.targetCount) gate.matrix = 1 := by
  cases gate with
  | single gate =>
    change (entriesMatrix 2 gate.matrix)ᴴ * entriesMatrix 2 gate.matrix = 1
    rw [entriesMatrix_oneQubit]
    exact oneQubit_unitary (fun h => h₀ (h ▸ rfl)) (fun h => h₁ (h ▸ rfl))
  | cx =>
    change (entriesMatrix 2 Pauli.X.matrix)ᴴ * entriesMatrix 2 Pauli.X.matrix = 1
    rw [entriesMatrix_pauli, pauli_unitary]
  | cz =>
    change (entriesMatrix 2 Pauli.Z.matrix)ᴴ * entriesMatrix 2 Pauli.Z.matrix = 1
    rw [entriesMatrix_pauli, pauli_unitary]
  | swap =>
    change (entriesMatrix 4 NamedGate.swap.matrix)ᴴ * entriesMatrix 4 NamedGate.swap.matrix = 1
    rw [entriesMatrix_swap, swap_unitary]

end GateCircuit
