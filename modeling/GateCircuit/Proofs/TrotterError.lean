/-
# The error of an evolution in repeats

The rotation of a term follows a path that starts at the identity, stays unitary, and moves at every time
by its generator. So it is the identity plus the generator, up to half the square of the generator's norm.
A product of such factors is the identity plus the sum of their generators, up to half the square of the
sum of their norms, in whatever order they stand; and so is the exponential of that sum. One slice of a
lowered circuit is therefore off by at most the square, and over all repeats of unitary slices the errors
at most add up.

Key definitions: `Generates`, `FirstOrder`.
Key theorems: `Generates.firstOrder`, `FirstOrder.mul`, `norm_pow_sub_pow_le`, `generates_turn`,
`generates_exp`, `firstOrder_evolution`, `trotter_error`.
-/
import Mathlib
import GateCircuit.Proofs.HamiltonianMatrix

namespace GateCircuit

open scoped Matrix Matrix.Norms.L2Operator

/-! ### Factors to first order -/

section Factors

variable {M : Type} [NormedRing M]

/-- The element `V` of the unit ball is one plus `A` up to half the square of `x`. -/
structure FirstOrder (V A : M) (x : ℝ) : Prop where
  bounded : ‖V‖ ≤ 1
  near : ‖V - 1‖ ≤ x
  linear : ‖V - 1 - A‖ ≤ x ^ 2 / 2

variable {A B V W : M} {x y : ℝ}

theorem FirstOrder.one [NormOneClass M] : FirstOrder (1 : M) 0 0 where
  bounded := norm_one.le
  near := by simp
  linear := by simp

/-- **Generators add up to first order**, whether or not the factors commute. -/
theorem FirstOrder.mul (h : FirstOrder V A x) (h' : FirstOrder W B y) :
    FirstOrder (V * W) (A + B) (x + y) where
  bounded := (norm_mul_le V W).trans (mul_le_one₀ h.bounded (norm_nonneg W) h'.bounded)
  near := by
    have hsplit : V * W - 1 = (V - 1) + V * (W - 1) := by noncomm_ring
    have hlate : ‖V * (W - 1)‖ ≤ y := by
      calc ‖V * (W - 1)‖ ≤ ‖V‖ * ‖W - 1‖ := norm_mul_le _ _
        _ ≤ ‖W - 1‖ := mul_le_of_le_one_left (norm_nonneg _) h.bounded
        _ ≤ y := h'.near
    rw [hsplit]
    exact (norm_add_le _ _).trans (add_le_add h.near hlate)
  linear := by
    have hsplit : V * W - 1 - (A + B) = (V - 1 - A) + (W - 1 - B) + (V - 1) * (W - 1) := by
      noncomm_ring
    have hcross : ‖(V - 1) * (W - 1)‖ ≤ x * y := by
      have hx : 0 ≤ x := (norm_nonneg _).trans h.near
      calc ‖(V - 1) * (W - 1)‖ ≤ ‖V - 1‖ * ‖W - 1‖ := norm_mul_le _ _
        _ ≤ x * y := mul_le_mul h.near h'.near (norm_nonneg _) hx
    calc ‖V * W - 1 - (A + B)‖ ≤ ‖V - 1 - A‖ + ‖W - 1 - B‖ + ‖(V - 1) * (W - 1)‖ := by
          rw [hsplit]
          exact norm_add₃_le
      _ ≤ x ^ 2 / 2 + y ^ 2 / 2 + x * y := add_le_add (add_le_add h.linear h'.linear) hcross
      _ = (x + y) ^ 2 / 2 := by ring

theorem FirstOrder.mono (h : FirstOrder V A x) (hxy : x ≤ y) : FirstOrder V A y where
  bounded := h.bounded
  near := h.near.trans hxy
  linear := by
    have hx : 0 ≤ x := (norm_nonneg _).trans h.near
    refine h.linear.trans ?_
    gcongr

/-- What agrees to first order differs by no more than the square. -/
theorem FirstOrder.sub_le (h : FirstOrder V A x) (h' : FirstOrder W A x) : ‖V - W‖ ≤ x ^ 2 := by
  have hsplit : V - W = (V - 1 - A) - (W - 1 - A) := by abel
  calc ‖V - W‖ ≤ ‖V - 1 - A‖ + ‖W - 1 - A‖ := by
        rw [hsplit]
        exact norm_sub_le _ _
    _ ≤ x ^ 2 / 2 + x ^ 2 / 2 := add_le_add h.linear h'.linear
    _ = x ^ 2 := by ring

/-- **Errors at most add up** over the powers of two elements of the unit ball. -/
theorem norm_pow_sub_pow_le [NormOneClass M] (hV : ‖V‖ ≤ 1) (hW : ‖W‖ ≤ 1) (r : ℕ) :
    ‖V ^ r - W ^ r‖ ≤ r * ‖V - W‖ := by
  induction r with
  | zero => simp
  | succ r ih =>
    have hsplit : V ^ (r + 1) - W ^ (r + 1) = V ^ r * (V - W) + (V ^ r - W ^ r) * W := by
      rw [pow_succ, pow_succ]
      noncomm_ring
    have hpow : ‖V ^ r‖ ≤ 1 := (norm_pow_le V r).trans (pow_le_one₀ (norm_nonneg V) hV)
    have hlast : ‖V ^ r * (V - W)‖ ≤ ‖V - W‖ :=
      (norm_mul_le _ _).trans (mul_le_of_le_one_left (norm_nonneg _) hpow)
    have hearlier : ‖(V ^ r - W ^ r) * W‖ ≤ r * ‖V - W‖ :=
      ((norm_mul_le _ _).trans (mul_le_of_le_one_right (norm_nonneg _) hW)).trans ih
    rw [hsplit]
    push_cast
    linarith [norm_add_le (V ^ r * (V - W)) ((V ^ r - W ^ r) * W)]

end Factors

/-! ### Paths and their generators -/

section Paths

variable {M : Type} [NormedRing M] [NormedAlgebra ℝ M]

/-- The path starts at one, moves at every time by `A`, and never leaves the unit ball. -/
structure Generates (A : M) (U : ℝ → M) : Prop where
  zero : U 0 = 1
  deriv : ∀ s, HasDerivAt U (A * U s) s
  bounded : ∀ s, ‖U s‖ ≤ 1

variable {A : M} {U : ℝ → M}

/-- A path leaves its start no faster than its generator allows. -/
theorem Generates.sub_one (h : Generates A U) {s : ℝ} (hs : 0 ≤ s) : ‖U s - 1‖ ≤ ‖A‖ * s := by
  have hspeed : ∀ x ∈ Set.Ico (0 : ℝ) s, ‖A * U x‖ ≤ ‖A‖ := fun x _ =>
    (norm_mul_le _ _).trans (mul_le_of_le_one_right (norm_nonneg A) (h.bounded x))
  have hpath := norm_image_sub_le_of_norm_deriv_le_segment'
    (fun x _ => (h.deriv x).hasDerivWithinAt) hspeed s ⟨hs, le_rfl⟩
  rwa [h.zero, sub_zero] at hpath

/-- **After unit time a path is its generator to first order.** What is left moves by the generator times
the way the path has gone. -/
theorem Generates.firstOrder (h : Generates A U) : FirstOrder (U 1) A ‖A‖ where
  bounded := h.bounded 1
  near := by simpa using h.sub_one zero_le_one
  linear := by
    have hrest : ∀ s, HasDerivAt (fun s => U s - 1 - s • A) (A * (U s - 1)) s := by
      intro s
      have hparts := ((h.deriv s).sub_const 1).fun_sub ((hasDerivAt_id s).smul_const A)
      refine hparts.congr_deriv ?_
      rw [one_smul, mul_sub, mul_one]
    have hsquare : ∀ s, HasDerivAt (fun s : ℝ => ‖A‖ ^ 2 / 2 * s ^ 2) (‖A‖ ^ 2 * s) s := by
      intro s
      have hslope : ‖A‖ ^ 2 / 2 * ((2 : ℕ) * s ^ (2 - 1)) = ‖A‖ ^ 2 * s := by
        push_cast
        ring
      rw [← hslope]
      exact (hasDerivAt_pow 2 s).const_mul (‖A‖ ^ 2 / 2)
    have hspeed : ∀ s ∈ Set.Ico (0 : ℝ) 1, ‖A * (U s - 1)‖ ≤ ‖A‖ ^ 2 * s := by
      intro s hs
      calc ‖A * (U s - 1)‖ ≤ ‖A‖ * ‖U s - 1‖ := norm_mul_le _ _
        _ ≤ ‖A‖ * (‖A‖ * s) := mul_le_mul_of_nonneg_left (h.sub_one hs.1) (norm_nonneg A)
        _ = ‖A‖ ^ 2 * s := by ring
    have hstart : ‖U 0 - 1 - (0 : ℝ) • A‖ ≤ ‖A‖ ^ 2 / 2 * 0 ^ 2 := by simp [h.zero]
    have hend : (1 : ℝ) ∈ Set.Icc (0 : ℝ) 1 := ⟨zero_le_one, le_rfl⟩
    have hpath := image_norm_le_of_norm_deriv_right_le_deriv_boundary
      (fun s _ => (hrest s).continuousAt.continuousWithinAt)
      (fun s _ => (hrest s).hasDerivWithinAt) hstart hsquare hspeed hend
    simpa using hpath

end Paths

/-! ### Rotations and exponentials -/

section Rotations

variable {n : ℕ} {string : List (Qubit × Pauli)}

/-- A rotation is undone by the rotation the other way, which is its adjoint. -/
theorem localMatrix_turn_mem_unitary (hnd : (string.map Prod.fst).Nodup)
    (hin : ∀ a ∈ string, a.1 < n) (x : ℝ) :
    localMatrix n (turn string x) ∈ unitary (Matrix (Fin (2 ^ n)) (Fin (2 ^ n)) ℂ) := by
  have hlocal : ∀ y, Local n (turn string y) := fun y => local_mixOperator hin _ _
  have hstar : star (localMatrix n (turn string x)) = localMatrix n (turn string (-x)) := by
    have hherm : star (stringMatrix n string) = stringMatrix n string :=
      stringMatrix_isHermitian n string
    have hflip : star (-(Real.sin x * Complex.I)) = -((Real.sin (-x) : ℝ) * Complex.I) := by
      rw [Real.sin_neg, RCLike.star_def, map_neg, map_mul, Complex.conj_ofReal, Complex.conj_I]
      push_cast
      ring
    rw [localMatrix_turn hnd hin, localMatrix_turn hnd hin, star_add, star_smul, star_smul, hherm,
      star_one, hflip, Real.cos_neg, RCLike.star_def, Complex.conj_ofReal]
  have hundo : ∀ y, localMatrix n (turn string y) * localMatrix n (turn string (-y)) = 1 := by
    intro y
    rw [← localMatrix_comp (hlocal y), ← turn_add hnd, add_neg_cancel, turn_zero, localMatrix_one]
  rw [Unitary.mem_iff, hstar]
  refine ⟨?_, hundo x⟩
  have := hundo (-x)
  rwa [neg_neg] at this

/-- The rotation about a string by a growing angle moves by a multiple of the string. -/
theorem generates_turn (hnd : (string.map Prod.fst).Nodup) (hin : ∀ a ∈ string, a.1 < n) (x : ℝ) :
    Generates ((-(x * Complex.I)) • stringMatrix n string)
      fun s => localMatrix n (turn string (s * x)) where
  zero := by rw [zero_mul, turn_zero, localMatrix_one]
  bounded s := (CStarRing.norm_of_mem_unitary (localMatrix_turn_mem_unitary hnd hin (s * x))).le
  deriv s := by
    have hangle : HasDerivAt (fun s : ℝ => s * x) x s := by
      simpa using (hasDerivAt_id s).mul_const x
    have hcos := (hangle.cos.ofReal_comp).smul_const (1 : Matrix (Fin (2 ^ n)) (Fin (2 ^ n)) ℂ)
    have hsin := ((hangle.sin.ofReal_comp.mul_const Complex.I).fun_neg).smul_const
      (stringMatrix n string)
    simp only [localMatrix_turn hnd hin]
    refine (hcos.fun_add hsin).congr_deriv ?_
    have hflip : -((Real.cos (s * x) * x : ℝ) * Complex.I) =
        -(x * Complex.I) * (Real.cos (s * x) : ℂ) := by
      push_cast
      ring
    have hstay : ((-Real.sin (s * x) * x : ℝ) : ℂ) =
        -(x * Complex.I) * -(Real.sin (s * x) * Complex.I) := by
      push_cast
      linear_combination (-(x * Complex.sin (s * x))) * Complex.I_sq
    rw [mul_add, smul_mul_smul_comm, smul_mul_smul_comm, mul_one, stringMatrix_self hnd hin, add_comm,
      hflip, hstay]

/-- The exponential of multiples of a skew-adjoint matrix is a path of unitary matrices. -/
theorem generates_exp {n : ℕ} {A : Matrix (Fin (2 ^ n)) (Fin (2 ^ n)) ℂ} (hA : A ∈ skewAdjoint _) :
    Generates A fun s : ℝ => NormedSpace.exp (s • A) where
  zero := by rw [zero_smul, NormedSpace.exp_zero]
  bounded s := by
    let +nondep : NormedAlgebra ℚ (Matrix (Fin (2 ^ n)) (Fin (2 ^ n)) ℂ) := .restrictScalars ℚ ℂ _
    exact (CStarRing.norm_of_mem_unitary
      (NormedSpace.exp_mem_unitary_of_mem_skewAdjoint (skewAdjoint.smul_mem s hA))).le
  deriv s := hasDerivAt_exp_smul_const' A s

/-- A string is unitary, so its norm is no larger than one. -/
theorem norm_stringMatrix_le (hnd : (string.map Prod.fst).Nodup) (hin : ∀ a ∈ string, a.1 < n) :
    ‖stringMatrix n string‖ ≤ 1 := by
  have hself : star (stringMatrix n string) = stringMatrix n string :=
    stringMatrix_isHermitian n string
  have hunitary : stringMatrix n string ∈ unitary (Matrix (Fin (2 ^ n)) (Fin (2 ^ n)) ℂ) := by
    rw [Unitary.mem_iff, hself]
    exact ⟨stringMatrix_self hnd hin, stringMatrix_self hnd hin⟩
  exact (CStarRing.norm_of_mem_unitary hunitary).le

end Rotations

/-! ### Slices -/

section Terms

variable {n : ℕ} {t : PauliTerm ℝ}

/-- The string of a term lies on distinct qubits of a register. -/
structure PauliTerm.OnRegister (t : PauliTerm ℝ) (n : ℕ) : Prop where
  distinct : ((t.qubits.zip t.paulis).map Prod.fst).Nodup
  inside : ∀ a ∈ t.qubits.zip t.paulis, a.1 < n

theorem TermAccepted.onRegister {width k : ℕ} (ht : TermAccepted width n k t) : t.OnRegister n :=
  ⟨ht.nodup, fun a ha => ht.inCircuit a.1 (List.of_mem_zip ha).1⟩

theorem abs_re_le_norm (a : Amplitude ℝ) : |a.re| ≤ a.norm := by
  refine Real.abs_le_sqrt ?_
  rw [sq]
  exact le_add_of_nonneg_right (mul_self_nonneg a.im)

theorem norm_halfAngle (angle : ℝ) : ‖-(Complex.I * (angle / 2))‖ = |angle| / 2 := by simp

/-- A weighted string is no larger than its weight. -/
theorem norm_weighted_le (ht : t.OnRegister n) : ‖(t.coef.re : ℂ) • t.toMatrix n‖ ≤ t.coef.norm := by
  have hre : ‖(t.coef.re : ℂ)‖ = |t.coef.re| := Complex.norm_real _
  calc ‖(t.coef.re : ℂ) • t.toMatrix n‖ ≤ |t.coef.re| * 1 := by
        rw [norm_smul, hre]
        exact mul_le_mul_of_nonneg_left (norm_stringMatrix_le ht.distinct ht.inside) (abs_nonneg _)
    _ ≤ t.coef.norm := by
        rw [mul_one]
        exact abs_re_le_norm t.coef

/-- **The rotation of a term** is its weighted string to first order. -/
theorem firstOrder_turned (ht : t.OnRegister n) (angle : ℝ) :
    FirstOrder (localMatrix n (t.turned angle))
      ((-(Complex.I * (angle / 2))) • ((t.coef.re : ℂ) • t.toMatrix n))
      (|angle| / 2 * t.coef.norm) := by
  have hpath := (generates_turn ht.distinct ht.inside (t.coef.re * angle / 2)).firstOrder
  have hangle : -(((t.coef.re * angle / 2 : ℝ) : ℂ) * Complex.I) =
      -(Complex.I * (angle / 2)) * (t.coef.re : ℂ) := by
    push_cast
    ring
  rw [one_mul, hangle, ← smul_smul] at hpath
  refine hpath.mono ?_
  rw [norm_smul, norm_halfAngle]
  exact mul_le_mul_of_nonneg_left (norm_weighted_le ht) (by positivity)

theorem local_turned (ht : t.OnRegister n) (angle : ℝ) : Local n (t.turned angle) :=
  local_mixOperator ht.inside _ _

end Terms

section Slices

variable {n : ℕ} {ts : List (PauliTerm ℝ)}

theorem local_evolution (hts : ∀ t ∈ ts, t.OnRegister n) (angle : ℝ) :
    Local n (evolution ts angle) := by
  induction ts with
  | nil => exact Local.id
  | cons t ts ih =>
    obtain ⟨ht, hts⟩ := List.forall_mem_cons.mp hts
    rw [evolution_cons]
    exact (ih hts).comp (local_turned ht angle)

/-- **A slice is the sum of the weighted strings to first order**, in whatever order the terms stand. -/
theorem firstOrder_evolution (hts : ∀ t ∈ ts, t.OnRegister n) (angle : ℝ) :
    FirstOrder (localMatrix n (evolution ts angle))
      ((-(Complex.I * (angle / 2))) • (ts.map fun t => (t.coef.re : ℂ) • t.toMatrix n).sum)
      (|angle| / 2 * (ts.map fun t => t.coef.norm).sum) := by
  induction ts with
  | nil =>
    rw [List.map_nil, List.map_nil, List.sum_nil, List.sum_nil, smul_zero, mul_zero]
    exact (localMatrix_one n).symm ▸ FirstOrder.one
  | cons t ts ih =>
    obtain ⟨ht, hts⟩ := List.forall_mem_cons.mp hts
    have hprod := (ih hts).mul (firstOrder_turned ht angle)
    rw [evolution_cons, localMatrix_comp (local_evolution hts angle), List.map_cons, List.sum_cons,
      List.map_cons, List.sum_cons, smul_add, mul_add, add_comm (_ • _), add_comm (_ * t.coef.norm)]
    exact hprod

theorem norm_sum_weighted_le (hts : ∀ t ∈ ts, t.OnRegister n) :
    ‖(ts.map fun t => (t.coef.re : ℂ) • t.toMatrix n).sum‖ ≤ (ts.map fun t => t.coef.norm).sum := by
  induction ts with
  | nil => simp
  | cons t ts ih =>
    obtain ⟨ht, hts⟩ := List.forall_mem_cons.mp hts
    simp only [List.map_cons, List.sum_cons]
    exact (norm_add_le _ _).trans (add_le_add (norm_weighted_le ht) (ih hts))

end Slices

/-! ### Hamiltonians -/

section Hamiltonian

variable {h : Hamiltonian ℝ} {n : ℕ}

theorem lambda_eq (h : Hamiltonian ℝ) : h.lambda = (h.terms.map fun t => t.coef.norm).sum := by
  have hfold : h.lambda = (h.terms.map fun t => t.coef.norm).foldl (· + ·) 0 := List.foldl_map.symm
  rw [hfold, List.sum_eq_foldl]

theorem toMatrix_isHermitian (h : Hamiltonian ℝ) (n : ℕ) : (h.toMatrix n).IsHermitian := by
  rw [Hamiltonian.toMatrix]
  induction h.terms with
  | nil => exact Matrix.isHermitian_zero
  | cons t ts ih =>
    have hterm : ((t.coef.re : ℂ) • t.toMatrix n).IsHermitian := by
      rw [Matrix.IsHermitian, Matrix.conjTranspose_smul, RCLike.star_def, Complex.conj_ofReal,
        PauliTerm.toMatrix, stringMatrix_isHermitian]
    exact hterm.add ih

/-- The generator of the evolution is skew-adjoint. -/
theorem generator_mem_skewAdjoint (h : Hamiltonian ℝ) (n : ℕ) (angle : ℝ) :
    (-(Complex.I * (angle / 2))) • h.toMatrix n ∈
      skewAdjoint (Matrix (Fin (2 ^ n)) (Fin (2 ^ n)) ℂ) := by
  have hself : star (h.toMatrix n) = h.toMatrix n := toMatrix_isHermitian h n
  have hangle : star (-(Complex.I * (angle / 2) : ℂ)) = Complex.I * (angle / 2) := by
    simp
  rw [skewAdjoint.mem_iff, star_smul, hself, hangle, neg_smul, neg_neg]

/-- **The exponential of a Hamiltonian agrees with a slice to first order.** -/
theorem firstOrder_exp (hh : ∀ t ∈ h.terms, t.OnRegister n) (angle : ℝ) :
    FirstOrder (NormedSpace.exp ((-(Complex.I * (angle / 2))) • h.toMatrix n))
      ((-(Complex.I * (angle / 2))) • h.toMatrix n) (|angle| / 2 * h.lambda) := by
  have hpath := (generates_exp (generator_mem_skewAdjoint h n angle)).firstOrder
  rw [one_smul] at hpath
  refine hpath.mono ?_
  rw [norm_smul, norm_halfAngle, lambda_eq]
  exact mul_le_mul_of_nonneg_left (norm_sum_weighted_le hh) (by positivity)

/-- **A slice is off by at most the square** of half its angle times the weight of the Hamiltonian. -/
theorem norm_slice_sub_exp_le (hh : ∀ t ∈ h.terms, t.OnRegister n) (angle : ℝ) :
    ‖localMatrix n (evolution h.terms angle) -
      NormedSpace.exp ((-(Complex.I * (angle / 2))) • h.toMatrix n)‖ ≤
        (|angle| / 2 * h.lambda) ^ 2 := by
  have hslice := firstOrder_evolution hh angle
  rw [← lambda_eq] at hslice
  exact hslice.sub_le (firstOrder_exp hh angle)

/-- **Over all repeats the errors add up to one share of the square.** -/
theorem norm_slices_sub_exp_le (hh : ∀ t ∈ h.terms, t.OnRegister n) (angle : ℝ) {r : ℕ} (hr : 0 < r) :
    ‖localMatrix n (evolution h.terms (angle / r) ^ r) -
      NormedSpace.exp ((-(Complex.I * (angle / 2))) • h.toMatrix n)‖ ≤
        angle ^ 2 * h.lambda ^ 2 / (4 * r) := by
  have hr' : (r : ℝ) ≠ 0 := Nat.cast_ne_zero.mpr hr.ne'
  set V := localMatrix n (evolution h.terms (angle / r)) with hV
  set W := NormedSpace.exp ((-(Complex.I * ((angle / r : ℝ) / 2))) • h.toMatrix n) with hW
  have hshares : W ^ r = NormedSpace.exp ((-(Complex.I * (angle / 2))) • h.toMatrix n) := by
    let +nondep : NormedAlgebra ℚ (Matrix (Fin (2 ^ n)) (Fin (2 ^ n)) ℂ) := .restrictScalars ℚ ℂ _
    have hangle : (r : ℂ) * -(Complex.I * ((angle / r : ℝ) / 2)) = -(Complex.I * (angle / 2)) := by
      have hr'' : (r : ℂ) ≠ 0 := Nat.cast_ne_zero.mpr hr.ne'
      push_cast
      field_simp
    rw [hW, ← NormedSpace.exp_nsmul, ← Nat.cast_smul_eq_nsmul ℂ, smul_smul, hangle]
  have hbounded : ‖V‖ ≤ 1 := (firstOrder_evolution hh (angle / r)).bounded
  have hbounded' : ‖W‖ ≤ 1 := (firstOrder_exp hh (angle / r)).bounded
  have hsquare : r * (|angle / r| / 2 * h.lambda) ^ 2 = angle ^ 2 * h.lambda ^ 2 / (4 * r) := by
    rw [mul_pow, div_pow, sq_abs]
    field_simp
    ring
  calc ‖localMatrix n (evolution h.terms (angle / r) ^ r) - _‖
      = ‖V ^ r - W ^ r‖ := by rw [localMatrix_pow (local_evolution hh _), hshares]
    _ ≤ r * ‖V - W‖ := norm_pow_sub_pow_le hbounded hbounded' r
    _ ≤ r * (|angle / r| / 2 * h.lambda) ^ 2 :=
        mul_le_mul_of_nonneg_left (norm_slice_sub_exp_le hh (angle / r)) (Nat.cast_nonneg r)
    _ = angle ^ 2 * h.lambda ^ 2 / (4 * r) := hsquare

end Hamiltonian

/-! ### Lowered circuits -/

/-- What a local operator makes of a register, in amplitudes of the register. -/
theorem StateVector.Becomes.vector_eq {s t : StateVector ℝ} {A : Operator} {n : ℕ}
    (h : s.Becomes A t) (hA : Local n A) :
    t.vector n = WithLp.toLp 2 (localMatrix n A *ᵥ (s.vector n).ofLp) := by
  have hmul := localMatrix_mulVec hA s.amp
  rw [StateVector.vector, h.amp]
  exact congrArg (WithLp.toLp 2) hmul.symm

/-- **The error of the evolution in repeats.** An empty circuit to which a Hamiltonian has been lowered in
`r` repeats runs on every register as wide as the circuit, and what it makes of the amplitudes is no
farther from the evolution under the matrix of the Hamiltonian, by half the angle, than the square of the
angle times the square of the sum of all weights, over four times `r`, of the norm of the amplitudes. -/
theorem trotter_error {γ : Type} [CarriesGates γ ℝ] {c c' : Circuit γ} {h : Hamiltonian ℝ}
    {angle : ℝ} {r : ℕ} (hempty : c.gates = []) (hr : 1 ≤ r) (hlower : c.lower h angle r = .ok c')
    {s : StateVector ℝ} (hs : s.WellFormed) (hn : s.qubitCount = c.qubitCount) :
    ∃ t : StateVector ℝ, c'.run s = .ok () t ∧ t.WellFormed ∧ t.qubitCount = c.qubitCount ∧
      ‖t.vector c.qubitCount - WithLp.toLp 2
          (NormedSpace.exp ((-(Complex.I * (angle / 2))) • h.toMatrix c.qubitCount) *ᵥ
            (s.vector c.qubitCount).ofLp)‖ ≤
        angle ^ 2 * h.lambda ^ 2 / (4 * r) * ‖s.vector c.qubitCount‖ := by
  have hcount : chosenRepeats angle h.qubitCount r = r := if_neg (by omega)
  obtain ⟨haccepted, rfl⟩ := lower_eq_ok.mp hlower
  rw [hcount]
  have hterms : ∀ t ∈ h.terms, t.OnRegister c.qubitCount := fun t ht => by
    obtain ⟨k, hk⟩ := List.getElem?_of_mem ht
    exact (haccepted k t hk).onRegister
  have hrun : c.run s = .ok () s := by
    rw [Circuit.run_eq_applyAll hn.ge, hempty]
    rfl
  have hfits := rotations_fit haccepted r (angle / r)
  obtain ⟨t, ht, hbecomes⟩ := Circuit.append_run_becomes hfits hs hrun
  refine ⟨t, ht, hbecomes.wellFormed, hbecomes.qubitCount.trans hn, ?_⟩
  have hlocal := local_gatesOperator hfits
  rw [gatesOperator_slices, gatesOperator_slice] at hbecomes hlocal
  rw [hbecomes.vector_eq hlocal, ← WithLp.toLp_sub, ← Matrix.sub_mulVec]
  refine (Matrix.l2_opNorm_mulVec _ _).trans ?_
  exact mul_le_mul_of_nonneg_right (norm_slices_sub_exp_le hterms angle hr) (norm_nonneg _)

/-- Two terms that do not commute, in three repeats by the angle one: the weights add up to three halves,
so the bound is three sixteenths. -/
theorem trotter_error_spin :
    ∃ c' : Circuit (Gate ℝ),
      (⟨2, []⟩ : Circuit (Gate ℝ)).lower ⟨2, spinTerms⟩ 1 3 = .ok c' ∧
      ∃ t : StateVector ℝ, c'.run (basisState 2 1 : StateVector ℝ) = .ok () t ∧
        ‖t.vector 2 - WithLp.toLp 2
            (NormedSpace.exp ((-(Complex.I * ((1 : ℝ) / 2))) •
              (⟨2, spinTerms⟩ : Hamiltonian ℝ).toMatrix 2) *ᵥ
                ((basisState 2 1 : StateVector ℝ).vector 2).ofLp)‖ ≤
          3 / 16 * ‖(basisState 2 1 : StateVector ℝ).vector 2‖ := by
  obtain ⟨c', hc'⟩ : ∃ c', (⟨2, []⟩ : Circuit (Gate ℝ)).lower ⟨2, spinTerms⟩ 1 3 = .ok c' :=
    ⟨_, lower_eq_ok.mpr ⟨fun k t ht => spinTerms_accepted k (List.mem_of_getElem? ht), rfl⟩⟩
  obtain ⟨t, ht, -, -, herror⟩ := trotter_error rfl (by decide) hc'
    (StateVector.wellFormed_basisState 2 1) rfl
  have hweight : ∀ x : ℝ, (Amplitude.ofReal x).norm = |x| := fun x => by
    change Real.sqrt (x * x + 0 * 0) = |x|
    rw [mul_zero, add_zero, Real.sqrt_mul_self_eq_abs]
  have hlambda : (⟨2, spinTerms⟩ : Hamiltonian ℝ).lambda = 3 / 2 := by
    rw [lambda_eq]
    simp only [spinTerms, PauliTerm.x, PauliTerm.z, PauliTerm.ofOps, List.map_cons, List.map_nil,
      List.sum_cons, List.sum_nil, hweight]
    norm_num
  refine ⟨c', hc', t, ht, herror.trans_eq ?_⟩
  rw [hlambda]
  norm_num

end GateCircuit
