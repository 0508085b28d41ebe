/-
# A circuit denotes one local operator

A circuit of built gates runs on every register that is wide enough, and does to its amplitudes what
the product of the operators of its gates does. All gates act on the lowest qubits only, so the product
is local: each block of amplitudes whose upper bits agree is multiplied by one and the same matrix,
the one whose columns are the runs from the basis states of the circuit's own register.

Key definitions: `gatesOperator`, `Circuit.operator`, `Circuit.FactoryBuilt`.
Key theorems: `Local.apply_eq_sum`, `gatesOperator_induction`, `applyAll_becomes`, `Circuit.run_becomes`,
`circuit_denotes_operator`.
-/
import Mathlib
import GateCircuit.Circuit.Run
import GateCircuit.Proofs.Building
import GateCircuit.Proofs.Kernels
import GateCircuit.Proofs.Register

namespace GateCircuit

/-! ### Blocks and basis states -/

/-- A block is the sum of its amplitudes times basis states. -/
theorem block_eq_sum (n h : ℕ) (ψ : ℕ → ℂ) :
    block n h ψ = ∑ l : Fin (2 ^ n), ψ (2 ^ n * h + l) • (Pi.single (l : ℕ) 1 : ℕ → ℂ) := by
  funext b
  rw [Finset.sum_apply]
  by_cases hb : b < 2 ^ n
  · rw [block_of_lt hb, Finset.sum_eq_single (⟨b, hb⟩ : Fin (2 ^ n))]
    · simp
    · intro l _ hl
      have hne : b ≠ l := fun h => hl (Fin.ext h.symm)
      simp [hne]
    · intro h
      exact absurd (Finset.mem_univ _) h
  · rw [block, if_neg hb]
    refine (Finset.sum_eq_zero fun l _ => ?_).symm
    have hne : b ≠ l := fun h => hb (h ▸ l.isLt)
    simp [hne]

/-- **A local operator is one matrix**, applied to every block. -/
theorem Local.apply_eq_sum {n : ℕ} {A : Operator} (hA : Local n A) (ψ : ℕ → ℂ) (h : ℕ) {l : ℕ}
    (hl : l < 2 ^ n) :
    A ψ (2 ^ n * h + l) =
      ∑ l' : Fin (2 ^ n), A (Pi.single (l' : ℕ) 1) l * ψ (2 ^ n * h + l') := by
  rw [hA ψ h l hl, block_eq_sum, map_sum, Finset.sum_apply]
  refine Finset.sum_congr rfl fun l' _ => ?_
  rw [map_smul, Pi.smul_apply, smul_eq_mul, mul_comm]

/-! ### Gate lists -/

/-- The operator of a list of gates, the first applied first. -/
noncomputable def gatesOperator : List (Gate ℝ) → Operator
  | [] => LinearMap.id
  | g :: gs => gatesOperator gs ∘ₗ g.kernel.operator

theorem gatesOperator_append (bs : List (Gate ℝ)) : ∀ as : List (Gate ℝ),
    gatesOperator (as ++ bs) = gatesOperator bs ∘ₗ gatesOperator as
  | [] => rfl
  | g :: as => by
    rw [List.cons_append, gatesOperator, gatesOperator, gatesOperator_append bs as,
      LinearMap.comp_assoc]

/-- What products of operators keep, a list of gates has if each of its gates has it. -/
theorem gatesOperator_induction {motive : Operator → Prop} (id : motive LinearMap.id)
    (comp : ∀ {A B}, motive A → motive B → motive (A ∘ₗ B)) : ∀ {gs : List (Gate ℝ)},
    (∀ g ∈ gs, motive g.kernel.operator) → motive (gatesOperator gs)
  | [], _ => id
  | g :: gs, h => by
    obtain ⟨hg, hgs⟩ := List.forall_mem_cons.mp h
    exact comp (gatesOperator_induction id comp hgs) hg

theorem local_gatesOperator {n : ℕ} {gs : List (Gate ℝ)} (h : ∀ g ∈ gs, g.kernel.Fits n) :
    Local n (gatesOperator gs) :=
  gatesOperator_induction Local.id Local.comp fun g hg => (h g hg).isLocal

/-- A gate of a circuit is its kernel, on states of every type. -/
theorem apply_eq_perform {R σ : Type} [Scalar R] [QuantumState σ R] (g : Gate R) (s : σ) :
    QuantumGate.apply g s = QuantumState.perform g.kernel s := by
  rw [QuantumGate.apply]
  change (Action.ofCall g.kernel).run s = _
  rw [Action.ofCall, Action.run]
  cases h : QuantumState.perform g.kernel s with
  | ok _ t =>
    simp only [h]
    rfl
  | error e t =>
    simp only [h]
    rfl

theorem applyAll_cons_of_ok {γ R σ : Type} [QuantumGate γ R] [QuantumState σ R] {g : γ}
    {gs : List γ} {s t : σ} (h : QuantumGate.apply g s = .ok () t) :
    applyAll (g :: gs) s = applyAll gs t := by
  rw [applyAll]
  simp only [h]

/-- **Gates that fit a register all succeed on it**, and their operator tells what becomes of it. -/
theorem applyAll_becomes {gs : List (Gate ℝ)} : ∀ {s : StateVector ℝ}, s.WellFormed →
    (∀ g ∈ gs, g.kernel.Fits s.qubitCount) →
    ∃ t, applyAll gs s = .ok () t ∧ s.Becomes (gatesOperator gs) t := by
  induction gs with
  | nil => exact fun hs _ => ⟨_, rfl, StateVector.Becomes.refl hs⟩
  | cons g gs ih =>
    intro s hs h
    rw [List.forall_mem_cons] at h
    rcases StateVector.perform_outcome hs h.1.size with ⟨-, t, ht, hg⟩ | ⟨hno, -⟩
    · have hfits : ∀ g ∈ gs, g.kernel.Fits t.qubitCount := by
        rw [hg.qubitCount]
        exact h.2
      obtain ⟨u, hu, hgs⟩ := ih hg.wellFormed hfits
      refine ⟨u, ?_, hg.trans hgs⟩
      rw [applyAll_cons_of_ok ((apply_eq_perform g s).trans ht), hu]
    · exact absurd h.1.operands hno

/-! ### Circuits -/

namespace Circuit

/-- The gates are built gates, and their operands lie inside the register, as in every circuit that
edits make (`edit_inRegister`). -/
structure FactoryBuilt (c : Circuit (Gate ℝ)) : Prop where
  inRegister : c.InRegister
  built : ∀ g ∈ c.gates, g.FactoryBuilt

/-- The state in which a step ends, whether it succeeds or not. -/
def endState {ε σ : Type} : EStateM.Result ε σ Unit → σ
  | .ok _ t => t
  | .error _ t => t

/-- The matrix of a circuit. Its columns are the amplitudes after runs from the basis states. -/
noncomputable def operator (c : Circuit (Gate ℝ)) :
    Matrix (Fin (2 ^ c.qubitCount)) (Fin (2 ^ c.qubitCount)) ℂ :=
  fun row col =>
    (endState (c.run (basisState c.qubitCount col : StateVector ℝ))).amp row

variable {c : Circuit (Gate ℝ)}

theorem FactoryBuilt.fits (hc : c.FactoryBuilt) {m : ℕ} (hm : c.qubitCount ≤ m) :
    ∀ g ∈ c.gates, g.kernel.Fits m := fun g hg =>
  ((hc.built g hg).kernel_fits (hc.inRegister g hg)).mono hm

/-- On a state that is wide enough, a run applies all gates. -/
theorem run_eq_applyAll {γ σ R : Type} [QuantumGate γ R] [QuantumState σ R] {c : Circuit γ} {s : σ}
    (hm : c.qubitCount ≤ QuantumState.qubitCount s) : c.run s = applyAll c.gates s := by
  rw [run, runRange, if_neg (by simp), if_neg (Nat.not_lt.mpr hm), List.drop_zero, Nat.sub_zero, size,
    List.take_length]

/-- **A circuit runs on every register that is wide enough.** -/
theorem run_becomes (hc : c.FactoryBuilt) {s : StateVector ℝ} (hs : s.WellFormed)
    (hm : c.qubitCount ≤ s.qubitCount) :
    ∃ t, c.run s = .ok () t ∧ s.Becomes (gatesOperator c.gates) t := by
  obtain ⟨t, ht, hbecomes⟩ := applyAll_becomes hs (hc.fits hm)
  exact ⟨t, (run_eq_applyAll hm).trans ht, hbecomes⟩

theorem FactoryBuilt.isLocal (hc : c.FactoryBuilt) : Local c.qubitCount (gatesOperator c.gates) :=
  local_gatesOperator (hc.fits le_rfl)

/-- The entries of the matrix, by the operator of the gates. -/
theorem operator_apply (hc : c.FactoryBuilt) (row col : Fin (2 ^ c.qubitCount)) :
    c.operator row col = gatesOperator c.gates (Pi.single (col : ℕ) 1) row := by
  obtain ⟨t, ht, hbecomes⟩ :=
    run_becomes hc (StateVector.wellFormed_basisState c.qubitCount col) le_rfl
  rw [operator, ht, endState, hbecomes.amp, StateVector.amp_basisState col.isLt]

theorem FactoryBuilt.append {bs : List (Gate ℝ)} (hc : c.FactoryBuilt)
    (hb : (⟨c.qubitCount, bs⟩ : Circuit (Gate ℝ)).FactoryBuilt) :
    (⟨c.qubitCount, c.gates ++ bs⟩ : Circuit (Gate ℝ)).FactoryBuilt where
  inRegister := List.forall_mem_append.mpr ⟨hc.inRegister, hb.inRegister⟩
  built := List.forall_mem_append.mpr ⟨hc.built, hb.built⟩

end Circuit

/-- **A circuit denotes one matrix, and acts locally.** The columns of the matrix are runs from the
basis states; on a register of any width at least that of the circuit, a run multiplies every block
of amplitudes by it; and the matrices of circuits applied in a row are multiplied. -/
theorem circuit_denotes_operator {c : Circuit (Gate ℝ)} (hc : c.FactoryBuilt) :
    (∀ s : StateVector ℝ, s.WellFormed → s.qubitCount = c.qubitCount →
      ∀ col : Fin (2 ^ c.qubitCount), ∃ basis t : StateVector ℝ,
        s.setBasis col = .ok basis ∧ c.run basis = .ok () t ∧
          ∀ row : Fin (2 ^ c.qubitCount), t.amp row = c.operator row col) ∧
    (∀ s : StateVector ℝ, s.WellFormed → c.qubitCount ≤ s.qubitCount →
      ∃ t : StateVector ℝ, c.run s = .ok () t ∧ t.WellFormed ∧ t.qubitCount = s.qubitCount ∧
        ∀ (h : ℕ) (l : Fin (2 ^ c.qubitCount)),
          t.amp (h * 2 ^ c.qubitCount + l) =
            ∑ l', c.operator l l' * s.amp (h * 2 ^ c.qubitCount + l')) ∧
    ∀ bs : List (Gate ℝ), (⟨c.qubitCount, bs⟩ : Circuit (Gate ℝ)).FactoryBuilt →
      (⟨c.qubitCount, c.gates ++ bs⟩ : Circuit (Gate ℝ)).operator =
        (⟨c.qubitCount, bs⟩ : Circuit (Gate ℝ)).operator * c.operator := by
  refine ⟨?_, ?_, ?_⟩
  · intro s hs hn col
    have hcol : (col : ℕ) < dimension s.qubitCount := by
      rw [dimension_eq, hn]
      exact col.isLt
    obtain ⟨t, ht, hbecomes⟩ :=
      Circuit.run_becomes hc (StateVector.wellFormed_basisState s.qubitCount col) hn.ge
    refine ⟨_, t, StateVector.setBasis_eq hs hcol, ht, fun row => ?_⟩
    rw [Circuit.operator_apply hc, hbecomes.amp,
      StateVector.amp_basisState (by rw [hn]; exact col.isLt)]
  · intro s hs hm
    obtain ⟨t, ht, hbecomes⟩ := Circuit.run_becomes hc hs hm
    refine ⟨t, ht, hbecomes.wellFormed, hbecomes.qubitCount, fun h l => ?_⟩
    simp only [Nat.mul_comm h, hbecomes.amp, hc.isLocal.apply_eq_sum s.amp h l.isLt,
      Circuit.operator_apply hc]
  · intro bs hb
    ext row col
    rw [Matrix.mul_apply, Circuit.operator_apply (hc.append hb)]
    have hsum := hb.isLocal.apply_eq_sum (gatesOperator c.gates (Pi.single (col : ℕ) 1)) 0 row.isLt
    simp only [Nat.mul_zero, Nat.zero_add] at hsum
    simp only [gatesOperator_append, LinearMap.comp_apply, hsum]
    refine Finset.sum_congr rfl fun mid _ => ?_
    rw [Circuit.operator_apply hb, Circuit.operator_apply hc]

/-- A Hadamard gate and a labelled controlled `x`. -/
def bellCircuit : Circuit (Gate ℝ) :=
  ⟨2, [Gate.single .h 0, { kind := .named .cx, targets := [1], controls := [0], label := "bell" }]⟩

theorem bellCircuit_factoryBuilt : bellCircuit.FactoryBuilt where
  inRegister := by
    intro g hg q hq
    simp only [bellCircuit, List.mem_pair] at hg
    rcases hg with rfl | rfl
    · obtain rfl : q = 0 := by simpa [QuantumGate.operands, QuantumGate.targets,
        QuantumGate.controls, Gate.single] using hq
      decide
    · have hq : q = 1 ∨ q = 0 := by simpa [QuantumGate.operands, QuantumGate.targets,
        QuantumGate.controls] using hq
      rcases hq with rfl | rfl <;> decide
  built := by
    intro g hg
    simp only [bellCircuit, List.mem_pair] at hg
    rcases hg with rfl | rfl
    · exact ⟨⟨.single .h 0, none, _, rfl, rfl⟩, by simp [Gate.single]⟩
    · exact ⟨⟨.cx 0 1, some "bell", _, rfl, rfl⟩, by simp⟩

/-- The circuit on a register with a qubit to spare, and after itself. -/
theorem circuit_denotes_operator_bell :
    bellCircuit.FactoryBuilt ∧
    (∃ t : StateVector ℝ, bellCircuit.run (basisState 3 4 : StateVector ℝ) = .ok () t ∧
      ∀ (h : ℕ) (l : Fin (2 ^ 2)), t.amp (h * 2 ^ 2 + l) =
        ∑ l', bellCircuit.operator l l' * (basisState 3 4 : StateVector ℝ).amp (h * 2 ^ 2 + l')) ∧
    (⟨2, bellCircuit.gates ++ bellCircuit.gates⟩ : Circuit (Gate ℝ)).operator =
      bellCircuit.operator * bellCircuit.operator := by
  obtain ⟨-, hrun, happend⟩ := circuit_denotes_operator bellCircuit_factoryBuilt
  have hwide : bellCircuit.qubitCount ≤ (basisState 3 4 : StateVector ℝ).qubitCount := by
    show 2 ≤ 3
    decide
  obtain ⟨t, ht, -, -, hamp⟩ := hrun _ (StateVector.wellFormed_basisState 3 4) hwide
  exact ⟨bellCircuit_factoryBuilt, ⟨t, ht, hamp⟩, happend _ bellCircuit_factoryBuilt⟩

end GateCircuit
