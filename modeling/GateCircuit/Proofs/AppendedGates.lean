/-
# Gates appended to a circuit

What a gate does to a register is up to the gate, but it can only call kernels, and those keep the
register well formed and as wide as it was. So gates that are appended to a circuit take over where the
run of the circuit has ended: its failure is the failure of the longer circuit, and after its success
the appended gates run on their own.

Key theorems: `Action.run_invariant`, `applyAll_invariant`, `applyAll_append`, `Circuit.append_run`,
`Circuit.append_runRange`, `Circuit.append_run_becomes`.
-/
import Mathlib
import GateCircuit.Lowering
import GateCircuit.Proofs.CheckedAccess
import GateCircuit.Proofs.CircuitOperator

namespace GateCircuit

/-! ### What kernels keep, gates keep -/

section Invariants

variable {R σ : Type} [QuantumState σ R] {P : σ → Prop}

/-- An action only reaches the state through kernels. What every kernel keeps, the action keeps, whatever
kernels it calls and however it ends. -/
theorem Action.run_invariant
    (hP : ∀ (kernel : KernelCall R) (s : σ), P s → P (Circuit.endState (QuantumState.perform kernel s)))
    (a : Action R) : ∀ {s : σ}, P s → P (Circuit.endState (a.run s)) := by
  induction a with
  | done => exact fun hs => hs
  | fail e => exact fun hs => hs
  | readQubitCount next ih => exact fun hs => ih _ hs
  | call kernel next ih =>
    intro s hs
    have hkernel := hP kernel s hs
    simp only [Action.run]
    cases hperform : QuantumState.perform kernel s with
    | ok _ t =>
      rw [hperform] at hkernel
      exact ih (.ok ()) hkernel
    | error e t =>
      rw [hperform] at hkernel
      exact ih (.error e) hkernel

theorem applyAll_invariant {γ : Type} [QuantumGate γ R]
    (hP : ∀ (kernel : KernelCall R) (s : σ), P s → P (Circuit.endState (QuantumState.perform kernel s))) :
    ∀ (gs : List γ) {s : σ}, P s → P (Circuit.endState (applyAll gs s))
  | [], _, hs => hs
  | g :: gs, s, hs => by
    have hgate := Action.run_invariant hP (QuantumGate.action g) hs
    simp only [applyAll, QuantumGate.apply]
    cases hrun : (QuantumGate.action g).run s with
    | ok _ t =>
      rw [hrun] at hgate
      exact applyAll_invariant hP gs hgate
    | error e t =>
      rw [hrun] at hgate
      exact hgate

end Invariants

/-- Gates of any type keep a register well formed and as wide as it was. -/
theorem applyAll_keeps {R : Type} [Scalar R] {γ : Type} [QuantumGate γ R] (gs : List γ)
    {s : StateVector R} (hs : s.WellFormed) : (Circuit.endState (applyAll gs s)).WellFormed ∧
      (Circuit.endState (applyAll gs s)).qubitCount = s.qubitCount := by
  refine applyAll_invariant (P := fun t : StateVector R => t.WellFormed ∧ t.qubitCount = s.qubitCount)
    (fun kernel t ht => ?_) gs ⟨hs, rfl⟩
  obtain ⟨hwf, hwidth⟩ := StateVector.perform_keeps ht.1 kernel
  exact ⟨hwf, hwidth.trans ht.2⟩

/-! ### Runs -/

section Runs

variable {γ R σ : Type}

/-- The second part of a list takes over where the first has ended, unless that fails. -/
theorem applyAll_append [QuantumGate γ R] [QuantumState σ R] (bs : List γ) :
    ∀ (as : List γ) (s : σ), applyAll (as ++ bs) s =
      match applyAll as s with
      | .ok _ t => applyAll bs t
      | .error e t => .error e t
  | [], _ => rfl
  | g :: as, s => by
    simp only [List.cons_append, applyAll]
    cases QuantumGate.apply g s with
    | error e t => rfl
    | ok _ t => exact applyAll_append bs as t

variable [Scalar R] [CarriesGates γ R] [QuantumState σ R]

/-- Gates that a type carries run as they do by themselves. -/
theorem applyAll_map_ofGate : ∀ (gs : List (Gate R)) (s : σ),
    applyAll (gs.map (CarriesGates.ofGate : Gate R → γ)) s = applyAll gs s
  | [], _ => rfl
  | g :: gs, s => by
    have happly : QuantumGate.apply (CarriesGates.ofGate g : γ) s = QuantumGate.apply g s := by
      rw [QuantumGate.apply, CarriesGates.action_ofGate, QuantumGate.apply]
    simp only [List.map_cons, applyAll, happly]
    cases QuantumGate.apply g s with
    | ok _ after => exact applyAll_map_ofGate gs after
    | error e after => rfl

namespace Circuit

variable (c : Circuit γ) (gs : List (Gate R)) (s : σ)

/-- A run of the longer circuit is a run of the circuit, and then of the appended gates. -/
theorem append_run : (c.append gs).run s =
    match c.run s with
    | .ok _ t => applyAll gs t
    | .error e t => .error e t := by
  by_cases hwide : c.qubitCount ≤ QuantumState.qubitCount s
  · have hwide' : (c.append gs).qubitCount ≤ QuantumState.qubitCount s := hwide
    rw [run_eq_applyAll hwide, run_eq_applyAll hwide', append, applyAll_append]
    simp only [applyAll_map_ofGate]
  · -- either circuit finds the register too small, before any gate is applied
    have hnarrow : QuantumState.qubitCount s < c.qubitCount := Nat.lt_of_not_le hwide
    simp [run, runRange, append, hnarrow]

/-- A run of the range behind the old end is a run of the appended gates. -/
theorem append_runRange (hwide : c.qubitCount ≤ QuantumState.qubitCount s) :
    (c.append gs).runRange c.size (c.append gs).size s = applyAll gs s := by
  have hsize : (c.append gs).size = c.size + gs.length := by simp [size, append]
  have hrange : ¬ ((c.append gs).size < c.size ∨ (c.append gs).size < (c.append gs).size) := by
    omega
  have hnarrow : ¬ QuantumState.qubitCount s < (c.append gs).qubitCount := Nat.not_lt.mpr hwide
  have hrest : ((c.append gs).gates.drop c.size).take ((c.append gs).size - c.size) =
      gs.map CarriesGates.ofGate := by
    rw [hsize, Nat.add_sub_cancel_left]
    simp [append, size]
  rw [runRange, if_neg hrange, if_neg hnarrow, hrest, applyAll_map_ofGate]

end Circuit
end Runs

section Exact

variable {γ : Type} [CarriesGates γ ℝ] {c : Circuit γ} {gs gs' : List (Gate ℝ)} {s : StateVector ℝ}

/-- A circuit that runs still runs after gates that fit it have been appended, and their operator tells
what more becomes of the register. -/
theorem Circuit.append_run_becomes (hfits : ∀ g ∈ gs, g.kernel.Fits c.qubitCount)
    (hs : s.WellFormed) {u : StateVector ℝ} (hrun : c.run s = .ok () u) :
    ∃ t, (c.append gs).run s = .ok () t ∧ u.Becomes (gatesOperator gs) t := by
  have hwide : c.qubitCount ≤ s.qubitCount := by
    by_contra hnarrow
    have hnarrow : QuantumState.qubitCount s < c.qubitCount := Nat.lt_of_not_le hnarrow
    simp [run, runRange, hnarrow] at hrun
  have hkeeps := applyAll_keeps c.gates hs
  rw [← Circuit.run_eq_applyAll hwide, hrun] at hkeeps
  obtain ⟨hu, hcount⟩ : u.WellFormed ∧ u.qubitCount = s.qubitCount := hkeeps
  obtain ⟨t, ht, hbecomes⟩ := applyAll_becomes hu fun g hg =>
    (hfits g hg).mono (hcount.symm ▸ hwide)
  refine ⟨t, ?_, hbecomes⟩
  rw [Circuit.append_run, hrun]
  exact ht

/-- Appended gates count by their operator only. -/
theorem Circuit.append_run_congr (hfits : ∀ g ∈ gs, g.kernel.Fits c.qubitCount)
    (hfits' : ∀ g ∈ gs', g.kernel.Fits c.qubitCount) (hop : gatesOperator gs = gatesOperator gs')
    (hs : s.WellFormed) : (c.append gs).run s = (c.append gs').run s := by
  cases hrun : c.run s with
  | error e u => rw [Circuit.append_run, Circuit.append_run, hrun]
  | ok _ u =>
    obtain ⟨t, ht, hbecomes⟩ := Circuit.append_run_becomes hfits hs hrun
    obtain ⟨t', ht', hbecomes'⟩ := Circuit.append_run_becomes hfits' hs hrun
    rw [← hop] at hbecomes'
    rw [ht, ht', hbecomes.unique hbecomes']

end Exact
end GateCircuit
