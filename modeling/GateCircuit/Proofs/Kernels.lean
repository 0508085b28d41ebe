/-
# What a kernel call comes to

A call on a well-formed register whose matrix or Pauli string has the size that its targets ask for
has one of two outcomes. If its operands fit the register, it succeeds and does what its operator
says; otherwise it fails with a fault of one of the operands, and the register stays as it was. So two
calls with the same operands and the same operator cannot be told apart.

Key theorems: `StateVector.perform_becomes`, `StateVector.applyPauli_becomes`,
`StateVector.perform_error`, `StateVector.perform_outcome`, `StateVector.perform_congr`.
-/
import Mathlib
import GateCircuit.StateVector.Kernels
import GateCircuit.Proofs.MatrixKernel
import GateCircuit.Proofs.PauliKernel

namespace GateCircuit

open Outcome

/-- Mixing in nothing of the identity leaves the string. -/
theorem mixOperator_zero_one (string : List (Qubit × Pauli)) :
    mixOperator string 0 1 = stringOperator string := by
  rw [mixOperator, zero_smul, one_smul, zero_add]

namespace StateVector

/-- **A call that fits succeeds**, and its operator tells what becomes of the register. -/
theorem perform_becomes {s : StateVector ℝ} (hs : s.WellFormed) {call : KernelCall ℝ}
    (h : call.Fits s.qubitCount) :
    ∃ t, s.perform call = .ok t ∧ s.Becomes call.operator t := by
  cases call with
  | matrix ts cs entries => exact applyMatrix_becomes hs h
  | pauli ts cs ps =>
    have := mixPauli_becomes hs h.operands h.size 0 1
    rwa [Amplitude.toComplex_zero, Amplitude.toComplex_one, mixOperator_zero_one] at this
  | rotation ts cs ps angle =>
    have := mixPauli_becomes hs h.operands h.size ⟨Scalar.cos (Scalar.half angle), 0⟩
      ⟨0, -Scalar.sin (Scalar.half angle)⟩
    rw [Amplitude.toComplex_real, Amplitude.toComplex_imaginary, scalar_half] at this
    have hflip : ((-Scalar.sin (angle / 2) : ℝ) : ℂ) * Complex.I =
        -(Real.sin (angle / 2) * Complex.I) := by
      rw [Complex.ofReal_neg, neg_mul]
      rfl
    rw [hflip] at this
    exact this

/-- A string on operands that fit can be applied, under no controls. -/
theorem applyPauli_becomes {s : StateVector ℝ} (hs : s.WellFormed) {ts : List Qubit} {ps : List Pauli}
    (hfit : FitOperands s.qubitCount ts) (hlen : ts.length = ps.length) :
    ∃ t, s.applyPauli ts [] ps = .ok t ∧ s.Becomes (stringOperator (ts.zip ps)) t := by
  have hfits : (KernelCall.pauli ts [] ps : KernelCall ℝ).Fits s.qubitCount := by
    refine ⟨?_, hlen⟩
    show FitOperands s.qubitCount (ts ++ [])
    rwa [List.append_nil]
  have hbecomes := perform_becomes hs hfits
  rwa [KernelCall.operator, controlled_nil] at hbecomes

section Errors

variable {R : Type} [Scalar R]

/-- If the sizes are right then only the operands can be refused. -/
theorem perform_error {s : StateVector R} {call : KernelCall R} (hsize : call.FitSize)
    {e : CircuitError R} :
    s.perform call = .error e ↔ s.operands call.targets call.controls = .error e := by
  cases call with
  | matrix ts cs entries =>
    have hsize : entries.size = blockEntries (blockSize ts.length) := hsize
    simp [perform, applyMatrix, map_eq_error, hsize, KernelCall.targets, KernelCall.controls]
  | pauli ts cs ps =>
    have hsize : ts.length = ps.length := hsize
    simp [perform, applyPauli, mixPauli, map_eq_error, hsize, KernelCall.targets,
      KernelCall.controls]
  | rotation ts cs ps angle =>
    have hsize : ts.length = ps.length := hsize
    simp [perform, applyRotation, mixPauli, map_eq_error, hsize, KernelCall.targets,
      KernelCall.controls]

/-- Operands that do not fit are refused. -/
theorem perform_refused {s : StateVector R} {call : KernelCall R} (hsize : call.FitSize)
    (h : ¬ FitOperands s.qubitCount (call.targets ++ call.controls)) :
    ∃ e, s.perform call = .error e ∧
      OperandFault s.qubitCount (call.targets ++ call.controls) e := by
  rcases hops : s.operands call.targets call.controls with e | o
  · exact ⟨e, (perform_error hsize).mpr hops, (operands_eq_error.mp hops).operandFault⟩
  · exact absurd (operands_eq_ok.mp hops).1 h

theorem mixPauli_fits {s t : StateVector R} {ts cs : List Qubit} {ps : List Pauli}
    {stay flip : Amplitude R} (h : s.mixPauli ts cs ps stay flip = .ok t) :
    FitOperands s.qubitCount (ts ++ cs) ∧ ts.length = ps.length := by
  unfold mixPauli at h
  split at h
  · cases h
  · rename_i hlen
    simp only [bind_eq_ok, operands_eq_ok] at h
    obtain ⟨_, ⟨hfit, -⟩, -⟩ := h
    exact ⟨hfit, not_not.mp hlen⟩

/-- A call that succeeds fits. -/
theorem fits_of_perform_ok {s t : StateVector R} {call : KernelCall R}
    (h : s.perform call = .ok t) : call.Fits s.qubitCount := by
  cases call with
  | matrix ts cs entries =>
    simp only [perform, applyMatrix, bind_eq_ok, operands_eq_ok] at h
    obtain ⟨_, ⟨hfit, -⟩, h⟩ := h
    split at h
    · exact ⟨hfit, by assumption⟩
    · cases h
  | pauli ts cs ps =>
    obtain ⟨hfit, hlen⟩ := mixPauli_fits h
    exact ⟨hfit, hlen⟩
  | rotation ts cs ps angle =>
    obtain ⟨hfit, hlen⟩ := mixPauli_fits h
    exact ⟨hfit, hlen⟩

end Errors

/-- **The two outcomes of a call** whose sizes are right. -/
theorem perform_outcome {s : StateVector ℝ} (hs : s.WellFormed) {call : KernelCall ℝ}
    (hsize : call.FitSize) :
    (FitOperands s.qubitCount (call.targets ++ call.controls) ∧
      ∃ t, QuantumState.perform call s = .ok () t ∧ s.Becomes call.operator t) ∨
    (¬ FitOperands s.qubitCount (call.targets ++ call.controls) ∧
      ∃ e, QuantumState.perform call s = .error e s ∧
        OperandFault s.qubitCount (call.targets ++ call.controls) e) := by
  by_cases h : FitOperands s.qubitCount (call.targets ++ call.controls)
  · obtain ⟨t, ht, hbecomes⟩ := perform_becomes hs ⟨h, hsize⟩
    refine .inl ⟨h, t, ?_, hbecomes⟩
    simp only [QuantumState.perform, ht]
  · obtain ⟨e, he, hfault⟩ := perform_refused hsize h
    refine .inr ⟨h, e, ?_, hfault⟩
    simp only [QuantumState.perform, he]

/-- **Operands and operator determine a call.** -/
theorem perform_congr {s : StateVector ℝ} (hs : s.WellFormed) {call call' : KernelCall ℝ}
    (htargets : call.targets = call'.targets) (hcontrols : call.controls = call'.controls)
    (hsize : call.FitSize) (hsize' : call'.FitSize)
    (hop : (call.targets ++ call.controls).Nodup → call.operator = call'.operator) :
    s.perform call = s.perform call' := by
  by_cases h : FitOperands s.qubitCount (call.targets ++ call.controls)
  · have h' : FitOperands s.qubitCount (call'.targets ++ call'.controls) := by
      rwa [← htargets, ← hcontrols]
    obtain ⟨t, ht, hbecomes⟩ := perform_becomes hs ⟨h, hsize⟩
    obtain ⟨t', ht', hbecomes'⟩ := perform_becomes hs ⟨h', hsize'⟩
    rw [← hop h.distinct] at hbecomes'
    rw [ht, ht', hbecomes.unique hbecomes']
  · obtain ⟨e, he, -⟩ := perform_refused hsize h
    have he' := (perform_error hsize).mp he
    rw [htargets, hcontrols] at he'
    rw [he, (perform_error hsize').mpr he']

end StateVector
end GateCircuit
