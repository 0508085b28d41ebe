/-
# What the names of gates promise

Gates of different families are tied to each other by their names: `x` is the Pauli string `X`, `rx` the
rotation about it, `sx` its square root, `u1` a rotation about `z` with a phase, `swap` three controlled
flips. Each of these holds on every register that the operands lie in. On one qubit it is an equation between
matrices of two rows; on two qubits, one between maps of basis indices, and a Hadamard gate on both sides of a
controlled sign can be taken under the control because it undoes itself where the control is not set.

Key definitions: `RunsTo`, `Agree`, `AgreeUpTo`, `OneQubitIdentities`, `TwoQubitIdentities`, `RunsAs`.
Key theorems: `RunsAs.agree`, `conjugate_controlled`, `exchanged_eq_flips`, `named_gates_keep_promises`.
-/
import Mathlib
import GateCircuit.Proofs.Clifford
import GateCircuit.Proofs.RotationGroup
import GateCircuit.Proofs.Support

namespace GateCircuit

open Outcome

/-! ### Recipes one after the other -/

/-- All recipes are built, and their gates in turn lead from one register to the other. -/
def RunsTo (s : StateVector ℝ) (rs : List (Recipe ℝ)) (t : StateVector ℝ) : Prop :=
  ∃ gs, rs.mapM Recipe.build = .ok gs ∧ applyAll gs s = .ok () t

/-- Two lists of recipes lead to one and the same register. -/
def Agree (s : StateVector ℝ) (rs rs' : List (Recipe ℝ)) : Prop := ∃ t, RunsTo s rs t ∧ RunsTo s rs' t

/-- The first list leads to where the second one does, with all amplitudes times `exp (i * angle)`. -/
def AgreeUpTo (s : StateVector ℝ) (angle : ℝ) (rs rs' : List (Recipe ℝ)) : Prop :=
  ∃ t, RunsTo s rs (t.scaledWhere [] (Amplitude.polar 1 angle)) ∧ RunsTo s rs' t

/-- The sum of two registers, amplitude by amplitude. -/
def StateVector.plus {R : Type} [Scalar R] (s t : StateVector R) : StateVector R :=
  { s with amplitudes := Array.zipWith (· + ·) s.amplitudes t.amplitudes }

/-- What the names of one-qubit gates promise, on one qubit of one register. -/
structure OneQubitIdentities (s : StateVector ℝ) (q : Qubit) : Prop where
  x_eq : Agree s [.single .x q] [.pauli [q] [.X]]
  y_eq : Agree s [.single .y q] [.pauli [q] [.Y]]
  z_eq : Agree s [.single .z q] [.pauli [q] [.Z]]
  rx_eq (angle : ℝ) : Agree s [.single (.rx angle) q] [.rotation [q] [.X] angle]
  ry_eq (angle : ℝ) : Agree s [.single (.ry angle) q] [.rotation [q] [.Y] angle]
  rz_eq (angle : ℝ) : Agree s [.single (.rz angle) q] [.rotation [q] [.Z] angle]
  sx_twice : Agree s [.single .sx q, .single .sx q] [.single .x q]
  sy_twice : Agree s [.single .sy q, .single .sy q] [.single .y q]
  s_twice : Agree s [.single .s q, .single .s q] [.single .z q]
  t_twice : Agree s [.single .t q, .single .t q] [.single .s q]
  u2_eq (phi lambda : ℝ) :
    Agree s [.single (.u2 phi lambda) q] [.single (.u3 (Real.pi / 2) phi lambda) q]
  u1_eq (lambda : ℝ) : AgreeUpTo s (lambda / 2) [.single (.u1 lambda) q] [.single (.rz lambda) q]
  u3_eq (theta phi lambda : ℝ) : AgreeUpTo s ((phi + lambda) / 2) [.single (.u3 theta phi lambda) q]
    [.single (.rz lambda) q, .single (.ry theta) q, .single (.rz phi) q]
  projections : ∃ t t', RunsTo s [.single .p0 q] t ∧ RunsTo s [.single .p1 q] t' ∧ t.plus t' = s

/-- What the names of two-qubit gates promise, on two qubits of one register. -/
structure TwoQubitIdentities (s : StateVector ℝ) (a b : Qubit) : Prop where
  swap_eq : Agree s [.swap a b] [.cx a b, .cx b a, .cx a b]
  cz_symm : Agree s [.cz a b] [.cz b a]
  cx_eq : Agree s [.single .h b, .cz a b, .single .h b] [.cx a b]

/-! ### Operators of recipes -/

/-- On registers of `n` qubits the recipes can be carried out, and their gates have the operator `A`. -/
def RunsAs (n : ℕ) (rs : List (Recipe ℝ)) (A : Operator) : Prop :=
  ∃ gs, rs.mapM Recipe.build = .ok gs ∧ (∀ g ∈ gs, g.kernel.Fits n) ∧ gatesOperator gs = A

namespace RunsAs

variable {n : ℕ} {r : Recipe ℝ} {rs rs' : List (Recipe ℝ)} {A B : Operator} {s : StateVector ℝ}

theorem nil : RunsAs n [] LinearMap.id := ⟨[], rfl, by simp, rfl⟩

theorem cons (hA : RunsAs n [r] A) (hB : RunsAs n rs B) : RunsAs n (r :: rs) (B ∘ₗ A) := by
  obtain ⟨gs, hbuild, hfits, rfl⟩ := hA
  obtain ⟨gs', hbuild', hfits', rfl⟩ := hB
  refine ⟨gs ++ gs', ?_, List.forall_mem_append.mpr ⟨hfits, hfits'⟩, gatesOperator_append gs' gs⟩
  rw [mapM_eq_ok] at *
  exact List.rel_append hbuild hbuild'

/-- A recipe with operands that fit and a list of the right size is carried out. -/
theorem of_fits (hts : r.targets ≠ []) (hsize : Gate.checkSize r.kind r.targets = .ok ())
    (hdense : ∀ entries, r.kind ≠ .dense entries) (hfit : FitOperands n (r.targets ++ r.controls)) :
    RunsAs n [r] (Gate.kernel { kind := r.kind, targets := r.targets, controls := r.controls }).operator := by
  refine ⟨[{ kind := r.kind, targets := r.targets, controls := r.controls }], ?_, ?_, rfl⟩
  · rw [mapM_eq_ok, List.forall₂_cons]
    refine ⟨?_, .nil⟩
    rw [Recipe.build_eq_make]
    exact Gate.make_eq_ok.mpr ⟨fun h => absurd h hts, hsize, hfit.distinct, rfl⟩
  · rw [List.forall_mem_singleton]
    refine ⟨?_, Gate.kernel_fitSize hsize fun entries h => absurd h (hdense entries)⟩
    rw [Gate.targets_kernel, Gate.controls_kernel]
    exact hfit

/-- What has an operator leads to what the operator makes of the register. -/
theorem runsTo (hA : RunsAs s.qubitCount rs A) (hs : s.WellFormed) : ∃ t, RunsTo s rs t ∧ s.Becomes A t := by
  obtain ⟨gs, hbuild, hfits, rfl⟩ := hA
  obtain ⟨t, ht, hbecomes⟩ := applyAll_becomes hs hfits
  exact ⟨t, ⟨gs, hbuild, ht⟩, hbecomes⟩

/-- **Recipes with one operator agree.** -/
theorem agree (hA : RunsAs s.qubitCount rs A) (hA' : RunsAs s.qubitCount rs' A) (hs : s.WellFormed) :
    Agree s rs rs' := by
  obtain ⟨t, ht, hbecomes⟩ := hA.runsTo hs
  obtain ⟨t', ht', hbecomes'⟩ := hA'.runsTo hs
  exact ⟨t, ht, hbecomes.unique hbecomes' ▸ ht'⟩

/-- If the operators differ by a phase, so do the registers. -/
theorem agreeUpTo {angle : ℝ} (hA : RunsAs s.qubitCount rs (Complex.exp (angle * Complex.I) • A))
    (hA' : RunsAs s.qubitCount rs' A) (hs : s.WellFormed) : AgreeUpTo s angle rs rs' := by
  obtain ⟨t, ht, hbecomes⟩ := hA.runsTo hs
  obtain ⟨t', ht', hbecomes'⟩ := hA'.runsTo hs
  have hscaled : s.Becomes (Complex.exp (angle * Complex.I) • A)
      (t'.scaledWhere [] (Amplitude.polar 1 angle)) := by
    refine ⟨StateVector.wellFormed_scaledWhere hbecomes'.wellFormed _ _, hbecomes'.qubitCount,
      funext fun b => ?_⟩
    have hall : AllSet [] b := fun q hq => absurd hq List.not_mem_nil
    rw [StateVector.amp_scaledWhere, if_pos hall,
      Amplitude.toComplex_polar, hbecomes'.amp, Complex.ofReal_one, one_mul]
    rfl
  exact ⟨t', hbecomes.unique hscaled ▸ ht, ht'⟩

end RunsAs

/-! ### Matrices on one qubit -/

theorem matrix_two_ext {a b c d a' b' c' d' : ℂ} (ha : a = a') (hb : b = b') (hc : c = c') (hd : d = d') :
    !![a, b; c, d] = !![a', b'; c', d'] := by
  subst ha hb hc hd
  rfl

theorem exp_half_twice (x : ℝ) :
    Complex.exp (((x / 2 : ℝ) : ℂ) * Complex.I) * Complex.exp (((x / 2 : ℝ) : ℂ) * Complex.I) =
      Complex.exp (x * Complex.I) := by
  rw [← Complex.exp_add]
  congr 1
  push_cast
  ring

theorem smul_two (x a b c d : ℂ) : x • !![a, b; c, d] = !![x * a, x * b; x * c, x * d] := by
  ext row col
  fin_cases row <;> fin_cases col <;> rfl

theorem add_two (a b c d a' b' c' d' : ℂ) :
    !![a, b; c, d] + !![a', b'; c', d'] = !![a + a', b + b'; c + c', d + d'] := by
  ext row col
  fin_cases row <;> fin_cases col <;> rfl

/-- The matrix of a rotation by `angle` about a Pauli operator. -/
noncomputable def Pauli.turn (p : Pauli) (angle : ℝ) : Matrix (Fin 2) (Fin 2) ℂ :=
  (Real.cos (angle / 2) : ℂ) • 1 + (-(Real.sin (angle / 2) * Complex.I)) • p.toMatrix

namespace OneQubitGate

theorem rx_toMatrix (angle : ℝ) : (rx angle).toMatrix = Pauli.X.turn angle := by
  simp only [toMatrix, Pauli.turn, Pauli.toMatrix, Matrix.one_fin_two, smul_two, add_two]
  refine matrix_two_ext ?_ ?_ ?_ ?_ <;> ring

theorem ry_toMatrix (angle : ℝ) : (ry angle).toMatrix = Pauli.Y.turn angle := by
  simp only [toMatrix, Pauli.turn, Pauli.toMatrix, Matrix.one_fin_two, smul_two, add_two]
  refine matrix_two_ext ?_ ?_ ?_ ?_
  · ring
  · linear_combination -(Real.sin (angle / 2) : ℂ) * Complex.I_sq
  · linear_combination (Real.sin (angle / 2) : ℂ) * Complex.I_sq
  · ring

theorem rz_toMatrix (angle : ℝ) : (rz angle).toMatrix = Pauli.Z.turn angle := by
  have hupper := Complex.exp_mul_I ((angle / 2 : ℝ) : ℂ)
  have hlower := Complex.exp_mul_I ((-angle / 2 : ℝ) : ℂ)
  rw [show ((-angle / 2 : ℝ) : ℂ) = -((angle / 2 : ℝ) : ℂ) by push_cast; ring, Complex.cos_neg,
    Complex.sin_neg] at hlower
  simp only [toMatrix, Pauli.turn, Pauli.toMatrix, Matrix.one_fin_two, smul_two, add_two,
    Complex.ofReal_cos, Complex.ofReal_sin]
  refine matrix_two_ext ?_ (by ring) (by ring) ?_
  · rw [show ((-angle / 2 : ℝ) : ℂ) = -((angle / 2 : ℝ) : ℂ) by push_cast; ring]
    linear_combination hlower
  · linear_combination hupper

theorem sx_mul_sx : (sx : OneQubitGate ℝ).toMatrix * sx.toMatrix = x.toMatrix := by
  simp only [toMatrix, Pauli.toMatrix, Matrix.mul_fin_two]
  refine matrix_two_ext ?_ ?_ ?_ ?_
  · linear_combination (1 / 2 : ℂ) * Complex.I_sq
  · linear_combination -(1 / 2 : ℂ) * Complex.I_sq
  · linear_combination -(1 / 2 : ℂ) * Complex.I_sq
  · linear_combination (1 / 2 : ℂ) * Complex.I_sq

theorem sy_mul_sy : (sy : OneQubitGate ℝ).toMatrix * sy.toMatrix = y.toMatrix := by
  simp only [toMatrix, Pauli.toMatrix, Matrix.mul_fin_two]
  refine matrix_two_ext ?_ ?_ ?_ ?_
  · ring
  · linear_combination -(1 / 2 : ℂ) * Complex.I_sq
  · linear_combination (1 / 2 : ℂ) * Complex.I_sq
  · ring

theorem s_mul_s : (s : OneQubitGate ℝ).toMatrix * s.toMatrix = z.toMatrix := by
  simp only [toMatrix, Pauli.toMatrix, Matrix.mul_fin_two]
  refine matrix_two_ext ?_ ?_ ?_ ?_ <;> simp

theorem t_mul_t : (t : OneQubitGate ℝ).toMatrix * t.toMatrix = s.toMatrix := by
  simp only [toMatrix, Matrix.mul_fin_two]
  refine matrix_two_ext (by simp) (by simp) (by simp) ?_
  have hquarter : ((Real.pi / 4 : ℝ) : ℂ) = ((Real.pi / 2 / 2 : ℝ) : ℂ) := by
    push_cast
    ring
  rw [hquarter, mul_zero, zero_add, exp_half_twice, Complex.ofReal_div, Complex.ofReal_ofNat,
    Complex.exp_pi_div_two_mul_I]

theorem h_mul_h : (h : OneQubitGate ℝ).toMatrix * h.toMatrix = 1 := by
  have hhalf := sqrt_half_mul_self
  simp only [toMatrix, Matrix.mul_fin_two, Matrix.one_fin_two]
  refine matrix_two_ext ?_ ?_ ?_ ?_
  · linear_combination 2 * hhalf
  · ring
  · ring
  · linear_combination 2 * hhalf

theorem h_mul_z_mul_h :
    (h : OneQubitGate ℝ).toMatrix * (Pauli.Z.toMatrix * h.toMatrix) = Pauli.X.toMatrix := by
  have hhalf := sqrt_half_mul_self
  simp only [toMatrix, Pauli.toMatrix, Matrix.mul_fin_two]
  refine matrix_two_ext ?_ ?_ ?_ ?_
  · ring
  · linear_combination 2 * hhalf
  · linear_combination 2 * hhalf
  · ring

theorem u1_toMatrix (lambda : ℝ) :
    (u1 lambda).toMatrix = Complex.exp (((lambda / 2 : ℝ) : ℂ) * Complex.I) • (rz lambda).toMatrix := by
  simp only [toMatrix, smul_two, mul_zero, exp_half_twice]
  refine matrix_two_ext ?_ rfl rfl rfl
  rw [← Complex.exp_add, ← add_mul, ← Complex.ofReal_add, neg_div, add_neg_cancel, Complex.ofReal_zero,
    zero_mul, Complex.exp_zero]

theorem u3_toMatrix (theta phi lambda : ℝ) : (u3 theta phi lambda).toMatrix =
    Complex.exp ((((phi + lambda) / 2 : ℝ) : ℂ) * Complex.I) •
      ((rz phi).toMatrix * ((ry theta).toMatrix * (rz lambda).toMatrix)) := by
  -- the phase makes each exponential the one of a sum of angles
  have hsum : ∀ x y z : ℝ, Complex.exp ((x : ℂ) * Complex.I) * (Complex.exp ((y : ℂ) * Complex.I) *
      Complex.exp ((z : ℂ) * Complex.I)) = Complex.exp (((x + y + z : ℝ) : ℂ) * Complex.I) := by
    intro x y z
    rw [← Complex.exp_add, ← Complex.exp_add]
    congr 1
    push_cast
    ring
  have hnone := hsum ((phi + lambda) / 2) (-phi / 2) (-lambda / 2)
  have hlambda := hsum ((phi + lambda) / 2) (-phi / 2) (lambda / 2)
  have hphi := hsum ((phi + lambda) / 2) (phi / 2) (-lambda / 2)
  have hboth := hsum ((phi + lambda) / 2) (phi / 2) (lambda / 2)
  rw [show (phi + lambda) / 2 + -phi / 2 + -lambda / 2 = 0 by ring, Complex.ofReal_zero, zero_mul,
    Complex.exp_zero] at hnone
  rw [show (phi + lambda) / 2 + -phi / 2 + lambda / 2 = lambda by ring] at hlambda
  rw [show (phi + lambda) / 2 + phi / 2 + -lambda / 2 = phi by ring] at hphi
  rw [show (phi + lambda) / 2 + phi / 2 + lambda / 2 = phi + lambda by ring] at hboth
  simp only [toMatrix, u3ToMatrix, Matrix.mul_fin_two, smul_two]
  refine matrix_two_ext ?_ ?_ ?_ ?_
  · linear_combination -(Real.cos (theta / 2) : ℂ) * hnone
  · linear_combination (Real.sin (theta / 2) : ℂ) * hlambda
  · linear_combination -(Real.sin (theta / 2) : ℂ) * hphi
  · linear_combination -(Real.cos (theta / 2) : ℂ) * hboth

theorem p0_add_p1 : (p0 : OneQubitGate ℝ).toMatrix + p1.toMatrix = 1 := by
  rw [toMatrix, toMatrix, Matrix.diagonal_add, ← Matrix.diagonal_one]
  congr 1
  funext row
  fin_cases row <;> simp

end OneQubitGate

/-! ### One-qubit gates -/

section OneQubit

variable {n : ℕ} {q : Qubit}

/-- A matrix on one qubit has two rows. -/
theorem rows_one (q : Qubit) : 2 = 2 ^ [q].length := rfl

theorem fits_one (hq : q < n) : FitOperands n ([q] ++ []) :=
  ⟨by simpa using hq, by simp⟩

theorem runsAs_single (hq : q < n) (gate : OneQubitGate ℝ) :
    RunsAs n [.single gate q] (matrixOperator [q] gate.toMatrix) := by
  have hop : (KernelCall.matrix [q] [] gate.matrix).operator = matrixOperator [q] gate.toMatrix := by
    rw [operator_matrix_single, entriesMatrix_oneQubit, controlled_nil]
  rw [← hop]
  exact RunsAs.of_fits (List.cons_ne_nil q []) rfl nofun (fits_one hq)

theorem runsAs_pauli (hq : q < n) (p : Pauli) :
    RunsAs n [.pauli [q] [p]] (matrixOperator [q] p.toMatrix) := by
  have hop : (KernelCall.pauli [q] [] [p] : KernelCall ℝ).operator = matrixOperator [q] p.toMatrix := by
    rw [← stringOperator_singleton]
    exact controlled_nil _
  rw [← hop]
  exact RunsAs.of_fits (List.cons_ne_nil q []) rfl nofun (fits_one hq)

theorem runsAs_rotation (hq : q < n) (p : Pauli) (angle : ℝ) :
    RunsAs n [.rotation [q] [p] angle] (matrixOperator [q] (p.turn angle)) := by
  have hdim := rows_one q
  have hop : (KernelCall.rotation [q] [] [p] angle).operator = matrixOperator [q] (p.turn angle) := by
    rw [Pauli.turn, matrixOperator_add hdim, matrixOperator_smul hdim, matrixOperator_smul hdim,
      matrixOperator_one hdim (List.nodup_singleton q), ← stringOperator_singleton]
    exact controlled_nil _
  rw [← hop]
  exact RunsAs.of_fits (List.cons_ne_nil q []) rfl nofun (fits_one hq)

/-- The matrix of gates on one qubit, the first applied first. -/
noncomputable def sequenceMatrix : List (OneQubitGate ℝ) → Matrix (Fin 2) (Fin 2) ℂ
  | [] => 1
  | gate :: gates => sequenceMatrix gates * gate.toMatrix

/-- **Gates on one qubit are carried out as the product of their matrices.** -/
theorem runsAs_sequence (hq : q < n) : ∀ gates : List (OneQubitGate ℝ),
    RunsAs n (gates.map (.single · q)) (matrixOperator [q] (sequenceMatrix gates))
  | [] => by
    rw [sequenceMatrix, matrixOperator_one (rows_one q) (List.nodup_singleton q)]
    exact .nil
  | gate :: gates => by
    rw [sequenceMatrix, matrixOperator_mul (rows_one q) (List.nodup_singleton q)]
    exact .cons (runsAs_single hq gate) (runsAs_sequence hq gates)

variable {s : StateVector ℝ}

theorem agree_sequences (hs : s.WellFormed) (hq : q < s.qubitCount) (gates gates' : List (OneQubitGate ℝ))
    (h : sequenceMatrix gates = sequenceMatrix gates') :
    Agree s (gates.map (.single · q)) (gates'.map (.single · q)) :=
  (runsAs_sequence hq gates).agree (h ▸ runsAs_sequence hq gates') hs

theorem agreeUpTo_sequences (hs : s.WellFormed) (hq : q < s.qubitCount) (angle : ℝ)
    (gates gates' : List (OneQubitGate ℝ))
    (h : sequenceMatrix gates = Complex.exp (angle * Complex.I) • sequenceMatrix gates') :
    AgreeUpTo s angle (gates.map (.single · q)) (gates'.map (.single · q)) := by
  refine RunsAs.agreeUpTo ?_ (runsAs_sequence hq gates') hs
  rw [← matrixOperator_smul (rows_one q), ← h]
  exact runsAs_sequence hq gates

theorem StateVector.amp_plus {s t : StateVector ℝ} (hsize : s.amplitudes.size = t.amplitudes.size) (b : ℕ) :
    (s.plus t).amp b = s.amp b + t.amp b := by
  rw [StateVector.amp, StateVector.amp, StateVector.amp, StateVector.plus, ← Amplitude.toComplex_add]
  by_cases hb : b < s.amplitudes.size
  · simp [hb, hsize ▸ hb]
  · rw [getD_of_size_le (by simpa [hsize] using hb), getD_of_size_le (by omega),
      getD_of_size_le (by omega)]
    simp

/-- **Together the projections are the identity.** -/
theorem projections_sum (hs : s.WellFormed) (hq : q < s.qubitCount) :
    ∃ t t', RunsTo s [.single .p0 q] t ∧ RunsTo s [.single .p1 q] t' ∧ t.plus t' = s := by
  obtain ⟨t, ht, hlower⟩ := (runsAs_single hq .p0).runsTo hs
  obtain ⟨t', ht', hupper⟩ := (runsAs_single hq .p1).runsTo hs
  have hwidth : t.qubitCount = t'.qubitCount := hlower.qubitCount.trans hupper.qubitCount.symm
  have hsize : t.amplitudes.size = t'.amplitudes.size := by
    rw [hlower.wellFormed, hupper.wellFormed, hwidth]
  have hplus : (t.plus t').WellFormed := by
    rw [StateVector.WellFormed, StateVector.plus, Array.size_zipWith, ← hsize, min_self]
    exact hlower.wellFormed
  have hid : matrixOperator [q] OneQubitGate.p0.toMatrix + matrixOperator [q] OneQubitGate.p1.toMatrix =
      LinearMap.id := by
    rw [← matrixOperator_add (rows_one q), OneQubitGate.p0_add_p1,
      matrixOperator_one (rows_one q) (List.nodup_singleton q)]
  refine ⟨t, t', ht, ht', StateVector.ext_amp hplus hs hlower.qubitCount (funext fun b => ?_)⟩
  rw [StateVector.amp_plus hsize, hlower.amp, hupper.amp, ← Pi.add_apply, ← LinearMap.add_apply, hid]
  rfl

theorem oneQubitIdentities (hs : s.WellFormed) (hq : q < s.qubitCount) : OneQubitIdentities s q where
  x_eq := (runsAs_single hq .x).agree (runsAs_pauli hq .X) hs
  y_eq := (runsAs_single hq .y).agree (runsAs_pauli hq .Y) hs
  z_eq := (runsAs_single hq .z).agree (runsAs_pauli hq .Z) hs
  rx_eq angle := (runsAs_single hq (.rx angle)).agree
    (OneQubitGate.rx_toMatrix angle ▸ runsAs_rotation hq .X angle) hs
  ry_eq angle := (runsAs_single hq (.ry angle)).agree
    (OneQubitGate.ry_toMatrix angle ▸ runsAs_rotation hq .Y angle) hs
  rz_eq angle := (runsAs_single hq (.rz angle)).agree
    (OneQubitGate.rz_toMatrix angle ▸ runsAs_rotation hq .Z angle) hs
  sx_twice := agree_sequences hs hq [.sx, .sx] [.x] (by
    simp only [sequenceMatrix, one_mul, OneQubitGate.sx_mul_sx])
  sy_twice := agree_sequences hs hq [.sy, .sy] [.y] (by
    simp only [sequenceMatrix, one_mul, OneQubitGate.sy_mul_sy])
  s_twice := agree_sequences hs hq [.s, .s] [.z] (by
    simp only [sequenceMatrix, one_mul, OneQubitGate.s_mul_s])
  t_twice := agree_sequences hs hq [.t, .t] [.s] (by
    simp only [sequenceMatrix, one_mul, OneQubitGate.t_mul_t])
  u2_eq phi lambda := agree_sequences hs hq [.u2 phi lambda] [.u3 (Real.pi / 2) phi lambda] rfl
  u1_eq lambda := agreeUpTo_sequences hs hq (lambda / 2) [.u1 lambda] [.rz lambda] (by
    simp only [sequenceMatrix, one_mul, OneQubitGate.u1_toMatrix])
  u3_eq theta phi lambda := agreeUpTo_sequences hs hq ((phi + lambda) / 2) [.u3 theta phi lambda]
    [.rz lambda, .ry theta, .rz phi] (by
      simp only [sequenceMatrix, one_mul, OneQubitGate.u3_toMatrix, Matrix.mul_assoc])
  projections := projections_sum hs hq

end OneQubit

/-! ### Two-qubit gates -/

section TwoQubits

variable {n : ℕ} {a b : Qubit}

theorem fits_controlled (ha : a < n) (hb : b < n) (hab : a ≠ b) : FitOperands n ([b] ++ [a]) := by
  refine ⟨?_, ?_⟩
  · simpa using ⟨hb, ha⟩
  · simpa using hab.symm

theorem runsAs_cx (hfit : FitOperands n ([b] ++ [a])) :
    RunsAs n [.cx a b] (controlled [a] (matrixOperator [b] Pauli.X.toMatrix)) := by
  rw [← entriesMatrix_pauli, ← operator_matrix_single]
  exact RunsAs.of_fits (List.cons_ne_nil b []) rfl nofun hfit

theorem runsAs_cz (hfit : FitOperands n ([b] ++ [a])) :
    RunsAs n [.cz a b] (controlled [a] (matrixOperator [b] Pauli.Z.toMatrix)) := by
  rw [← entriesMatrix_pauli, ← operator_matrix_single]
  exact RunsAs.of_fits (List.cons_ne_nil b []) rfl nofun hfit

theorem runsAs_swap (hfit : FitOperands n ([a, b] ++ [])) :
    RunsAs n [.swap a b] (matrixOperator [a, b] swapMatrix) := by
  have hop : (KernelCall.matrix [a, b] [] NamedGate.swap.matrix).operator =
      matrixOperator [a, b] swapMatrix := by
    rw [operator_matrix_pair, entriesMatrix_swap, controlled_nil]
  rw [← hop]
  exact RunsAs.of_fits (List.cons_ne_nil a [b]) rfl nofun hfit

/-- The basis index with the bit of `t` flipped if the bit of `c` is set. -/
def flippedIf (c t : Qubit) (i : ℕ) : ℕ := if i.testBit c then i ^^^ t.mask else i

theorem testBit_flippedIf (c t : Qubit) (i j : ℕ) :
    (flippedIf c t i).testBit j = (i.testBit j ^^ (i.testBit c && decide (t = j))) := by
  unfold flippedIf
  cases i.testBit c with
  | true => rw [if_pos rfl, Nat.testBit_xor, testBit_mask, Bool.true_and]
  | false => simp

/-- A controlled flip reads every amplitude at the flipped index. -/
theorem controlled_x_apply (c t : Qubit) (ψ : ℕ → ℂ) (i : ℕ) :
    controlled [c] (matrixOperator [t] Pauli.X.toMatrix) ψ i = ψ (flippedIf c t i) := by
  rw [← stringOperator_singleton, ← maskOperator_flip, controlled_singleton, maskOperator_apply,
    Nat.and_zero, bitSign_zero, one_mul, flippedIf]
  split <;> rfl

/-- A controlled sign multiplies the amplitudes where both bits are set. -/
theorem controlled_z_apply (c t : Qubit) (ψ : ℕ → ℂ) (i : ℕ) :
    controlled [c] (matrixOperator [t] Pauli.Z.toMatrix) ψ i =
      (if i.testBit c && i.testBit t then -1 else 1) * ψ i := by
  rw [← stringOperator_singleton, ← maskOperator_sign, controlled_singleton, maskOperator_apply,
    Nat.xor_zero, bitSign_mask]
  by_cases hc : i.testBit c = true <;> simp [hc]

/-- **Three controlled flips exchange two bits.** -/
theorem exchanged_eq_flips (hab : a ≠ b) (i : ℕ) :
    exchanged a b i = flippedIf a b (flippedIf b a (flippedIf a b i)) := by
  have hba := hab.symm
  refine Nat.eq_of_testBit_eq fun j => ?_
  rw [testBit_exchanged hab]
  simp only [testBit_flippedIf]
  by_cases hja : j = a
  · rw [hja, Equiv.swap_apply_left]
    cases i.testBit a <;> cases i.testBit b <;> simp [hba]
  by_cases hjb : j = b
  · rw [hjb, Equiv.swap_apply_right]
    cases i.testBit a <;> cases i.testBit b <;> simp [hab, hba]
  · rw [Equiv.swap_apply_of_ne_of_ne hja hjb]
    simp [Ne.symm hja, Ne.symm hjb]

/-- **An operator and its inverse around a controlled one** can be taken under the control, if they do not
touch it: where the control is not set they undo each other. -/
theorem conjugate_controlled {ts cs : List Qubit} {U U' A : Operator} (hU : ActsOn ts U)
    (hdisjoint : ts.Disjoint cs) (hinverse : U ∘ₗ U' = LinearMap.id) :
    U ∘ₗ (controlled cs A ∘ₗ U') = controlled cs (U ∘ₗ (A ∘ₗ U')) := by
  obtain ⟨coeff, -, hsum⟩ := hU
  refine LinearMap.ext fun ψ => funext fun b => ?_
  have hsame : ∀ m ∈ submasks ts, (AllSet cs (b ^^^ m) ↔ AllSet cs b) := fun m hm =>
    allSet_congr fun q hq => testBit_xor_submask hdisjoint hm b hq
  -- the operator mixes only indices on which the controls agree
  have hinside : ∀ φ : ℕ → ℂ, (∀ m ∈ submasks ts, controlled cs A (U' ψ) (b ^^^ m) = φ (b ^^^ m)) →
      (U ∘ₗ (controlled cs A ∘ₗ U')) ψ b = U φ b := by
    intro φ h
    rw [LinearMap.comp_apply, LinearMap.comp_apply, hsum, hsum]
    exact Finset.sum_congr rfl fun m hm => by rw [h m hm]
  rw [controlled_apply]
  by_cases hset : AllSet cs b
  · rw [if_pos hset]
    refine hinside (A (U' ψ)) fun m hm => ?_
    rw [controlled_apply, if_pos ((hsame m hm).mpr hset)]
  · rw [if_neg hset, hinside (U' ψ) fun m hm => ?_]
    · exact congrFun (LinearMap.congr_fun hinverse ψ) b
    · rw [controlled_apply, if_neg fun h => hset ((hsame m hm).mp h)]

/-- A Hadamard gate on both sides of a controlled sign makes it a controlled flip. -/
theorem hadamard_conjugate (hab : a ≠ b) :
    matrixOperator [b] OneQubitGate.h.toMatrix ∘ₗ
        (controlled [a] (matrixOperator [b] Pauli.Z.toMatrix) ∘ₗ
          matrixOperator [b] OneQubitGate.h.toMatrix) =
      controlled [a] (matrixOperator [b] Pauli.X.toMatrix) := by
  have hnd := List.nodup_singleton b
  have hacts : ActsOn [b] (matrixOperator [b] OneQubitGate.h.toMatrix) :=
    actsOn_blockOperator hnd (rows_one b).le _
  rw [conjugate_controlled hacts (by simpa using hab), ← matrixOperator_mul (rows_one b) hnd,
    ← matrixOperator_mul (rows_one b) hnd, OneQubitGate.h_mul_z_mul_h]
  rw [← matrixOperator_mul (rows_one b) hnd, OneQubitGate.h_mul_h, matrixOperator_one (rows_one b) hnd]

variable {s : StateVector ℝ}

theorem twoQubitIdentities (hs : s.WellFormed) (ha : a < s.qubitCount) (hb : b < s.qubitCount)
    (hab : a ≠ b) : TwoQubitIdentities s a b where
  swap_eq := by
    have hforth := runsAs_cx (fits_controlled ha hb hab)
    have hback := runsAs_cx (fits_controlled hb ha hab.symm)
    have hfit : FitOperands s.qubitCount ([a, b] ++ []) := ⟨by simpa using ⟨ha, hb⟩, by simpa using hab⟩
    refine (runsAs_swap hfit).agree ?_ hs
    convert RunsAs.cons hforth (.cons hback hforth) using 1
    refine LinearMap.ext fun ψ => funext fun i => ?_
    simp only [LinearMap.comp_apply]
    rw [matrixOperator_swap, exchanged_eq_flips hab, controlled_x_apply, controlled_x_apply,
      controlled_x_apply]
  cz_symm := by
    refine (runsAs_cz (fits_controlled ha hb hab)).agree ?_ hs
    convert runsAs_cz (fits_controlled hb ha hab.symm) using 1
    refine LinearMap.ext fun ψ => funext fun i => ?_
    rw [controlled_z_apply, controlled_z_apply, Bool.and_comm]
  cx_eq := by
    have hturn := runsAs_single hb .h
    refine RunsAs.agree ?_ (runsAs_cx (fits_controlled ha hb hab)) hs
    rw [← hadamard_conjugate hab, ← LinearMap.comp_assoc]
    exact .cons hturn (.cons (runsAs_cz (fits_controlled ha hb hab)) hturn)

end TwoQubits

/-- **The named gates keep what their names promise**, on every register and on all operands inside it. -/
theorem named_gates_keep_promises {s : StateVector ℝ} (hs : s.WellFormed) :
    (∀ q < s.qubitCount, OneQubitIdentities s q) ∧
      ∀ a < s.qubitCount, ∀ b < s.qubitCount, a ≠ b → TwoQubitIdentities s a b :=
  ⟨fun _ hq => oneQubitIdentities hs hq, fun _ ha _ hb hab => twoQubitIdentities hs ha hb hab⟩

/-- On three qubits, far apart and downwards. -/
theorem named_gates_keep_promises_three :
    (basisState 3 5 : StateVector ℝ).WellFormed ∧ OneQubitIdentities (basisState 3 5) 1 ∧
      TwoQubitIdentities (basisState 3 5) 2 0 := by
  have hs := StateVector.wellFormed_basisState (R := ℝ) 3 5
  obtain ⟨hone, htwo⟩ := named_gates_keep_promises hs
  have hin : ∀ q < 3, q < (basisState 3 5 : StateVector ℝ).qubitCount := fun q hq => hq
  exact ⟨hs, hone 1 (hin 1 (by decide)), htwo 2 (hin 2 (by decide)) 0 (hin 0 (by decide)) (by decide)⟩

end GateCircuit
