/-
# A Pauli string, one qubit at a time

A string is the product of its operators, each on its own qubit, and the product does not depend on their
order: they act on different qubits. So the kernel of strings, which has no limit on the length of a string,
does what the matrix kernel does in one-qubit steps under the same controls, taken in any order. A rotation
adds the string to the identity.

Key theorems: `stringOperator_cons`, `stringOperator_perm`, `StateVector.steps_become`,
`pauli_kernel_in_steps`.
-/
import Mathlib
import GateCircuit.Gate.Kind
import GateCircuit.Proofs.RotationGroup

namespace GateCircuit

/-! ### Strings operator by operator -/

section Strings

variable {string string' : List (Qubit × Pauli)}

theorem flipMask_cons_eq_xor {a : Qubit × Pauli} {rest : List (Qubit × Pauli)}
    (ha : ∀ a' ∈ rest, a'.1 ≠ a.1) : flipMask (a :: rest) = flipMask rest ^^^ flipMask [a] := by
  apply Nat.eq_of_testBit_eq
  intro i
  have hrest := testBit_flipMask_of_notMem ha
  have hnil : flipMask [] = 0 := rfl
  obtain ⟨q, p⟩ := a
  rw [flipMask_cons, flipMask_cons, hnil]
  by_cases hi : q = i
  · subst hi
    cases p.flips <;> simp [hrest]
  · cases p.flips <;> simp [hi]

/-- **The first operator of a string can be applied before the others.** -/
theorem stringOperator_cons {a : Qubit × Pauli} {rest : List (Qubit × Pauli)}
    (ha : ∀ a' ∈ rest, a'.1 ≠ a.1) :
    stringOperator (a :: rest) = stringOperator rest ∘ₗ stringOperator [a] := by
  refine LinearMap.ext fun ψ => funext fun b => ?_
  have hbits : ∀ a' ∈ rest,
      (b ^^^ flipMask rest ^^^ flipMask [a]).testBit a'.1 = (b ^^^ flipMask rest).testBit a'.1 := by
    intro a' ha'
    have hkeep : (flipMask [a]).testBit a'.1 = false := by
      refine testBit_flipMask_of_notMem fun c hc h => ha a' ha' ?_
      rw [List.mem_singleton.mp hc] at h
      exact h.symm
    rw [Nat.testBit_xor, hkeep, Bool.xor_false]
  rw [LinearMap.comp_apply, stringOperator_apply, stringOperator_apply, stringOperator_apply,
    flipMask_cons_eq_xor ha, ← Nat.xor_assoc, ← stringFactor_congr rest hbits, stringFactor,
    stringFactor, stringFactor]
  ring

theorem stringFactor_perm (h : string.Perm string') (b : ℕ) :
    stringFactor string b = stringFactor string' b := by
  induction h with
  | nil => rfl
  | cons a _ ih => rw [stringFactor, stringFactor, ih]
  | swap a a' rest =>
    simp only [stringFactor]
    ring
  | trans _ _ ih ih' => exact ih.trans ih'

/-- The operators of a string may be listed in any order. -/
theorem stringOperator_perm (h : string.Perm string') : stringOperator string = stringOperator string' := by
  have hflips : flipMask string = flipMask string' := by
    apply Nat.eq_of_testBit_eq
    intro i
    rw [flipMask, flipMask, testBit_maskOf, testBit_maskOf]
    exact decide_eq_decide.mpr ((h.filter _).map _).mem_iff
  refine LinearMap.ext fun ψ => funext fun b => ?_
  rw [stringOperator_apply, stringOperator_apply, hflips, stringFactor_perm h]

end Strings

/-! ### Steps -/

/-- The matrix of a Pauli operator on one qubit is the string of that operator. -/
theorem operator_matrix_pauliStep (a : Qubit × Pauli) (cs : List Qubit) :
    (KernelCall.matrix [a.1] cs a.2.matrix).operator = controlled cs (stringOperator [a]) := by
  rw [operator_matrix_single, entriesMatrix_pauli, ← stringOperator_singleton]

namespace StateVector

/-- Applies the operators of a string one after the other, by their matrices. -/
def applySteps {R : Type} [Scalar R] (s : StateVector R) (cs : List Qubit)
    (steps : List (Qubit × Pauli)) : Except (CircuitError R) (StateVector R) :=
  steps.foldlM (fun s a => s.applyMatrix [a.1] cs a.2.matrix) s

/-- **One-qubit steps** under the same controls come to the string of all their operators. -/
theorem steps_become {cs : List Qubit} {steps : List (Qubit × Pauli)} : ∀ {s : StateVector ℝ},
    s.WellFormed → FitOperands s.qubitCount (steps.map Prod.fst ++ cs) →
    ∃ t, s.applySteps cs steps = .ok t ∧ s.Becomes (controlled cs (stringOperator steps)) t := by
  induction steps with
  | nil =>
    intro s hs _
    have hid : stringOperator [] = LinearMap.id := by
      refine LinearMap.ext fun ψ => funext fun b => ?_
      simp [stringOperator_apply, stringFactor, flipMask, maskOf]
    refine ⟨s, rfl, ?_⟩
    rw [hid, controlled_id]
    exact .refl hs
  | cons a rest ih =>
    intro s hs hfit
    have hnodup := List.nodup_cons.mp hfit.distinct
    have hfresh : ∀ a' ∈ rest, a'.1 ≠ a.1 := fun a' ha' h =>
      hnodup.1 (List.mem_append_left _ (List.mem_map.mpr ⟨a', ha', h⟩))
    have hstep : (KernelCall.matrix [a.1] cs a.2.matrix : KernelCall ℝ).Fits s.qubitCount := by
      refine ⟨⟨fun q hq => hfit.inside q ?_, ?_⟩, ?_⟩
      · rcases List.mem_append.mp hq with hq | hq
        · exact List.mem_append_left _ (List.mem_singleton.mp hq ▸ List.mem_cons_self)
        · exact List.mem_append_right _ hq
      · exact List.nodup_cons.mpr ⟨fun h => hnodup.1 (List.mem_append_right _ h),
          (List.nodup_append.mp hfit.distinct).2.1⟩
      · cases a.2 <;> rfl
    obtain ⟨t, ht, htwill⟩ := perform_becomes hs hstep
    have hrest : FitOperands t.qubitCount (rest.map Prod.fst ++ cs) := by
      rw [htwill.qubitCount]
      exact ⟨fun q hq => hfit.inside q (List.mem_cons_of_mem _ hq), hnodup.2⟩
    obtain ⟨u, hu, huwill⟩ := ih htwill.wellFormed hrest
    refine ⟨u, ?_, ?_⟩
    · have ht : s.applyMatrix [a.1] cs a.2.matrix = .ok t := ht
      rw [applySteps, List.foldlM_cons, ht]
      exact hu
    · have hall := htwill.trans huwill
      have hdisjoint : (rest.map Prod.fst).Disjoint cs := List.disjoint_of_nodup_append hnodup.2
      rwa [operator_matrix_pauliStep, controlled_comp (actsOn_stringOperator rest) hdisjoint,
        ← stringOperator_cons hfresh] at hall

end StateVector

/-! ### The kernel in steps -/

section Kernel

variable {s : StateVector ℝ} {ts cs : List Qubit} {ps : List Pauli}

/-- **The kernel of strings in one-qubit steps.** On operands that fit, a string of any length succeeds and
leaves what the matrices of its operators leave, one qubit after the other under the same controls, in any
order; and a rotation leaves, where all controls are set, the old amplitude times the cosine of half the
angle less `i` times the sine of it times what the string leaves, and elsewhere the old amplitude. -/
theorem pauli_kernel_in_steps (hs : s.WellFormed) (hfit : FitOperands s.qubitCount (ts ++ cs))
    (hlen : ts.length = ps.length) {order : List (Qubit × Pauli)} (horder : order.Perm (ts.zip ps))
    (angle : ℝ) :
    ∃ t, s.applyPauli ts cs ps = .ok t ∧ s.applySteps cs order = .ok t ∧
      ∃ u, s.applyRotation ts cs ps angle = .ok u ∧ u.WellFormed ∧ u.qubitCount = s.qubitCount ∧
        ∀ b, u.amp b =
          if AllSet cs b then
            Complex.cos (angle / 2) * s.amp b - Complex.I * Complex.sin (angle / 2) * t.amp b
          else s.amp b := by
  have hpauli : (KernelCall.pauli ts cs ps : KernelCall ℝ).Fits s.qubitCount := ⟨hfit, hlen⟩
  have hrotation : (KernelCall.rotation ts cs ps angle).Fits s.qubitCount := ⟨hfit, hlen⟩
  have hqubits : (order.map Prod.fst).Perm ts := by
    have := horder.map Prod.fst
    rwa [List.map_fst_zip hlen.le] at this
  have hsteps : FitOperands s.qubitCount (order.map Prod.fst ++ cs) := by
    have hperm := hqubits.append_right cs
    exact ⟨fun q hq => hfit.inside q (hperm.mem_iff.mp hq), hperm.nodup_iff.mpr hfit.distinct⟩
  obtain ⟨t, ht, htwill⟩ := StateVector.perform_becomes hs hpauli
  obtain ⟨t', ht', htwill'⟩ := StateVector.steps_become hs hsteps
  obtain ⟨u, hu, huwill⟩ := StateVector.perform_becomes hs hrotation
  have hsame : t' = t := by
    rw [stringOperator_perm horder] at htwill'
    exact htwill'.unique htwill
  refine ⟨t, ht, hsame ▸ ht', u, hu, huwill.wellFormed, huwill.qubitCount, fun b => ?_⟩
  rw [huwill.amp, htwill.amp, KernelCall.operator, KernelCall.operator, controlled_apply,
    controlled_apply]
  split
  · rw [mixOperator, LinearMap.add_apply, LinearMap.smul_apply, LinearMap.smul_apply,
      LinearMap.id_apply, Pi.add_apply, Pi.smul_apply, Pi.smul_apply, smul_eq_mul, smul_eq_mul]
    push_cast
    ring
  · rfl

/-- Twelve operators, more than a matrix is written out for, from the last qubit to the first, under two
controls. -/
theorem pauli_kernel_in_steps_wide :
    let ts := List.range 12
    let ps := [Pauli.X, .Y, .Z, .I, .Y, .Y, .X, .Z, .Z, .Y, .X, .I]
    (basisState 14 12290 : StateVector ℝ).WellFormed ∧ FitOperands 14 (ts ++ [13, 12]) ∧
      ts.length = ps.length ∧ maxMatrixQubits < ps.length ∧ (ts.zip ps).reverse.Perm (ts.zip ps) ∧
      ∃ t, (basisState 14 12290 : StateVector ℝ).applyPauli ts [13, 12] ps = .ok t ∧
        (basisState 14 12290 : StateVector ℝ).applySteps [13, 12] (ts.zip ps).reverse = .ok t := by
  intro ts ps
  have hs := StateVector.wellFormed_basisState (R := ℝ) 14 12290
  have hfit : FitOperands 14 (ts ++ [13, 12]) := ⟨by decide, by decide⟩
  have horder : (ts.zip ps).reverse.Perm (ts.zip ps) := List.reverse_perm _
  obtain ⟨t, ht, hsteps, -⟩ := pauli_kernel_in_steps hs hfit rfl horder 1
  exact ⟨hs, hfit, rfl, by decide, horder, t, ht, hsteps⟩

end Kernel
end GateCircuit
