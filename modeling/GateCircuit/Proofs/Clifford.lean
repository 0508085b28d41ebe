/-
# Clifford circuits turn Pauli strings into Pauli strings

Each gate that is classed as Clifford normalises the Pauli strings: the one-qubit gates turn `X` and `Z`
into Pauli operators up to a sign, the controlled gates are controlled strings, and the exchange renames
qubits. So a Clifford circuit carries every string to a multiple of another one. A string is its own
inverse, so the factor squares to one, because the operator of the circuit does not vanish.

Key definitions: `OneQubitGate.images`.
Key theorems: `oneQubit_images`, `normalises_named`, `Gate.FactoryBuilt.normalises`,
`Circuit.FactoryBuilt.normalises`, `factor_of_carried`, `clifford_carries_strings`.
-/
import Mathlib
import GateCircuit.Circuit.Summary
import GateCircuit.Proofs.Normaliser
import GateCircuit.Proofs.Unitarity

namespace GateCircuit

open scoped ComplexConjugate Matrix

/-! ### One-qubit gates -/

/-- What conjugation by a Clifford gate makes of `X` and of `Z`: a sign and an operator each. Other
gates are not meant. -/
noncomputable def OneQubitGate.images : OneQubitGate ℝ → (ℂ × Pauli) × (ℂ × Pauli)
  | x => ((1, .X), (-1, .Z))
  | y => ((-1, .X), (-1, .Z))
  | z => ((-1, .X), (1, .Z))
  | h => ((1, .Z), (1, .X))
  | s => ((1, .Y), (1, .Z))
  | sdg => ((-1, .Y), (1, .Z))
  | sx => ((1, .X), (-1, .Y))
  | sxdg => ((1, .X), (1, .Y))
  | sy => ((-1, .Z), (1, .X))
  | sydg => ((1, .Z), (-1, .X))
  | _ => ((1, .X), (1, .Z))

theorem I_mul_half_one_add_I :
    Complex.I * ((1 + Complex.I) / 2) = -((1 - Complex.I) / 2) := by
  linear_combination (1 / 2 : ℂ) * Complex.I_sq

theorem I_mul_half_one_sub_I : Complex.I * ((1 - Complex.I) / 2) = (1 + Complex.I) / 2 := by
  linear_combination (-(1 / 2) : ℂ) * Complex.I_sq

/-- **The table of images is right** for every Clifford gate on one qubit. -/
theorem oneQubit_images {gate : OneQubitGate ℝ} (h : gate.isClifford = true) :
    gate.toMatrix * Pauli.X.toMatrix =
        gate.images.1.1 • (gate.images.1.2.toMatrix * gate.toMatrix) ∧
      gate.toMatrix * Pauli.Z.toMatrix =
        gate.images.2.1 • (gate.images.2.2.toMatrix * gate.toMatrix) := by
  cases gate with
  | id | x | y | z | h | s | sdg | sx | sxdg | sy | sydg =>
    constructor <;>
      simp [OneQubitGate.toMatrix, OneQubitGate.images, Pauli.toMatrix, I_mul_half_one_add_I,
        I_mul_half_one_sub_I, Matrix.one_fin_two]
  | t | tdg | p0 | p1 | rx | ry | rz | u1 | u2 | u3 => cases h

theorem normalises_oneQubit {n : ℕ} {q : Qubit} (hq : q < n) {gate : OneQubitGate ℝ}
    (h : gate.isClifford = true) : Normalises n (matrixOperator [q] gate.toMatrix) :=
  normalises_matrix hq ⟨_, _, (oneQubit_images h).1⟩ ⟨_, _, (oneQubit_images h).2⟩

/-! ### Named gates -/

/-- The matrix of the exchange reads every amplitude at the exchanged index. -/
theorem matrixOperator_swap (a b : Qubit) (ψ : ℕ → ℂ) (i : ℕ) :
    matrixOperator [a, b] swapMatrix ψ i = ψ (exchanged a b i) := by
  have hdim : 4 = 2 ^ [a, b].length := rfl
  have hrow : ∀ row : Fin 4, gather [a, b] i = row → rowOf hdim i = row := fun row h => Fin.ext h
  rw [matrixOperator_apply hdim, exchanged, Fin.sum_univ_four]
  -- the row is what the two bits spell, the column what they spell in the other order
  cases ha : i.testBit a with
  | false =>
    cases hb : i.testBit b with
    | false =>
      rw [hrow 0 (by simp [gather, ha, hb])]
      simp [swapMatrix, gather, ha, hb]
    | true =>
      rw [hrow 2 (by simp [gather, ha, hb])]
      simp [swapMatrix, gather, ha, hb]
  | true =>
    cases hb : i.testBit b with
    | false =>
      rw [hrow 1 (by simp [gather, ha, hb])]
      simp [swapMatrix, gather, ha, hb]
    | true =>
      rw [hrow 3 (by simp [gather, ha, hb])]
      simp [swapMatrix, gather, ha, hb]

section Named

variable {n : ℕ} {ts cs : List Qubit}

theorem normalises_controlledPauli {c t : Qubit} (hfit : FitOperands n ([t] ++ [c])) (p : Pauli) :
    Normalises n (KernelCall.matrix [t] [c] p.matrix).operator := by
  have hne : t ≠ c := by simpa using hfit.distinct
  have hc : c < n := hfit.inside c (by simp)
  have ht : t < n := hfit.inside t (by simp)
  rw [operator_matrix_single, entriesMatrix_pauli, ← stringOperator_singleton]
  exact normalises_controlled hc (nodup_fst_singleton t p) (by simpa using ht) (by simpa using hne)

/-- **The named Clifford gates normalise all strings.** -/
theorem normalises_named {gate : NamedGate ℝ} (h : gate.isClifford = true)
    (hfit : FitOperands n (ts ++ cs)) (hts : ts.length = gate.targetCount)
    (hcs : cs.length = gate.controlCount) :
    Normalises n (KernelCall.matrix ts cs gate.matrix).operator := by
  cases gate with
  | single gate =>
    obtain ⟨t, rfl⟩ := List.length_eq_one_iff.mp hts
    obtain rfl := List.length_eq_zero_iff.mp hcs
    change Normalises n (KernelCall.matrix [t] [] gate.matrix).operator
    rw [operator_matrix_single, entriesMatrix_oneQubit, controlled_nil]
    exact normalises_oneQubit (hfit.inside t (by simp)) h
  | cx =>
    obtain ⟨t, rfl⟩ := List.length_eq_one_iff.mp hts
    obtain ⟨c, rfl⟩ := List.length_eq_one_iff.mp hcs
    exact normalises_controlledPauli hfit .X
  | cz =>
    obtain ⟨t, rfl⟩ := List.length_eq_one_iff.mp hts
    obtain ⟨c, rfl⟩ := List.length_eq_one_iff.mp hcs
    exact normalises_controlledPauli hfit .Z
  | swap =>
    obtain ⟨a, b, rfl⟩ := List.length_eq_two.mp hts
    obtain rfl := List.length_eq_zero_iff.mp hcs
    have hab : a ≠ b := by simpa using hfit.distinct
    rw [operator_matrix_pair, entriesMatrix_swap, controlled_nil]
    exact normalises_exchange hab (hfit.inside a (by simp)) (hfit.inside b (by simp))
      (matrixOperator_swap a b)

end Named

/-! ### Gates and circuits -/

section Gates

variable {g : Gate ℝ} {n : ℕ}

/-- **A built gate that is classed as Clifford normalises all strings.** -/
theorem Gate.FactoryBuilt.normalises (hg : g.FactoryBuilt)
    (hin : ∀ q ∈ QuantumGate.operands g, q < n) (h : g.kind.isClifford = true) :
    Normalises n g.kernel.operator := by
  have hfit := hg.fitOperands hin
  have hcontrols := hg.controls_length
  cases hg.calls with
  | named hkind hlen hkernel =>
    rw [hkind] at h hcontrols
    rw [hkernel]
    exact normalises_named h hfit hlen hcontrols
  | @pauli ps hkind hlen hkernel =>
    rw [hkind] at hcontrols
    have hnone : g.controls = [] := List.length_eq_zero_iff.mp hcontrols
    have hinside : ∀ a ∈ g.targets.zip ps, a.1 < n := fun a ha =>
      hfit.inside a.1 (List.mem_append_left _ (List.of_mem_zip ha).1)
    rw [hkernel, KernelCall.operator, hnone, controlled_nil]
    exact (isPauli_stringOperator (nodup_fst_zip hfit hlen) hinside).normalises
  | rotation hkind =>
    rw [hkind] at h
    cases h
  | dense hkind =>
    rw [hkind] at h
    cases h

/-- An operator that carries one string to another multiplies it by a sign, unless the operator
vanishes. -/
theorem factor_of_carried {A : Operator} {ψ : ℕ → ℂ} {b : ℕ} (hA : A ψ b ≠ 0)
    {string string' : List (Qubit × Pauli)} (hnd : (string.map Prod.fst).Nodup)
    (hnd' : (string'.map Prod.fst).Nodup) {a : ℂ}
    (h : A ∘ₗ stringOperator string = (a • stringOperator string') ∘ₗ A) : a = 1 ∨ a = -1 := by
  have htwice : A = (a * a) • A := by
    calc A = (A ∘ₗ stringOperator string) ∘ₗ stringOperator string := by
          rw [LinearMap.comp_assoc, stringOperator_self hnd, LinearMap.comp_id]
      _ = (a • stringOperator string') ∘ₗ ((a • stringOperator string') ∘ₗ A) := by
          rw [h, LinearMap.comp_assoc, h]
      _ = (a * a) • ((stringOperator string' ∘ₗ stringOperator string') ∘ₗ A) := by
          rw [LinearMap.smul_comp, LinearMap.smul_comp, LinearMap.comp_smul, smul_smul,
            LinearMap.comp_assoc]
      _ = (a * a) • A := by rw [stringOperator_self hnd', LinearMap.id_comp]
  have hvalue : 1 * A ψ b = a * a * A ψ b := by
    rw [one_mul]
    exact congrFun (LinearMap.congr_fun htwice ψ) b
  exact mul_self_eq_one_iff.mp (mul_right_cancel₀ hA hvalue).symm

end Gates

section Circuits

variable {c : Circuit (Gate ℝ)}

/-- **A circuit of Clifford gates normalises all strings** on its register. -/
theorem Circuit.FactoryBuilt.normalises (hc : c.FactoryBuilt) (h : c.isClifford = true) :
    Normalises c.qubitCount (gatesOperator c.gates) :=
  gatesOperator_induction Normalises.id Normalises.comp fun g hg =>
    (hc.built g hg).normalises (hc.inRegister g hg) (List.all_eq_true.mp h g hg)

/-- No Clifford gate is dense, and none is a projection. -/
theorem Circuit.preserves_of_isClifford (hc : c.FactoryBuilt) (h : c.isClifford = true) :
    Preserves (Finset.range (2 ^ c.qubitCount)) (gatesOperator c.gates) := by
  have hkind : ∀ g ∈ c.gates, g.kind.isClifford = true := fun g hg => List.all_eq_true.mp h g hg
  refine hc.preserves (fun g hg entries hdense => ?_) (fun g hg => ⟨fun hp => ?_, fun hp => ?_⟩) le_rfl
  · have := hkind g hg
    rw [hdense] at this
    cases this
  all_goals
    have := hkind g hg
    rw [hp] at this
    cases this

end Circuits

/-- A string with an operator for each qubit of a register can be applied to it. -/
theorem applyPauli_range {s : StateVector ℝ} (hs : s.WellFormed) {n : ℕ} (hn : s.qubitCount = n)
    {ps : List Pauli} (hps : ps.length = n) :
    ∃ t, s.applyPauli (List.range n) [] ps = .ok t ∧
      s.Becomes (stringOperator ((List.range n).zip ps)) t := by
  have hfit : FitOperands s.qubitCount (List.range n) := by
    rw [hn]
    exact ⟨fun q hq => List.mem_range.mp hq, List.nodup_range⟩
  exact StateVector.applyPauli_becomes hs hfit (by rw [List.length_range, hps])

/-- **Clifford circuits turn Pauli strings into Pauli strings.** For every string with an operator for
each qubit there are a sign and another such string, so that on every register of the circuit's width a
run after the first string is the second string after a run, times the sign. -/
theorem clifford_carries_strings {c : Circuit (Gate ℝ)} (hc : c.FactoryBuilt)
    (hclifford : c.isClifford = true) {ps : List Pauli} (hps : ps.length = c.qubitCount) :
    ∃ (sign : ℂ) (ps' : List Pauli), (sign = 1 ∨ sign = -1) ∧ ps'.length = c.qubitCount ∧
      ∀ s : StateVector ℝ, s.WellFormed → s.qubitCount = c.qubitCount →
        ∃ before u after v : StateVector ℝ,
          s.applyPauli (List.range c.qubitCount) [] ps = .ok before ∧ c.run before = .ok () u ∧
          c.run s = .ok () after ∧ after.applyPauli (List.range c.qubitCount) [] ps' = .ok v ∧
          u.WellFormed ∧ v.WellFormed ∧ u.qubitCount = v.qubitCount ∧
          ∀ b, u.amp b = sign * v.amp b := by
  have hrange : ∀ a ∈ (List.range c.qubitCount).zip ps, a.1 < c.qubitCount := fun a ha =>
    List.mem_range.mp (List.of_mem_zip ha).1
  have hstring := isPauli_stringOperator (nodup_fst_zip_range hps) hrange
  obtain ⟨P, hP, hcarry⟩ := hc.normalises hclifford _ hstring
  obtain ⟨sign, ps', hps', rfl⟩ := hP.exists_string
  obtain ⟨ψ, b, hne⟩ := (Circuit.preserves_of_isClifford hc hclifford).exists_ne_zero
  have hsign := factor_of_carried hne (nodup_fst_zip_range hps) (nodup_fst_zip_range hps') hcarry
  refine ⟨sign, ps', hsign, hps', fun s hs hwidth => ?_⟩
  obtain ⟨before, hbefore, hstart⟩ := applyPauli_range hs hwidth hps
  obtain ⟨u, hu, hend⟩ := Circuit.run_becomes hc hstart.wellFormed (hstart.qubitCount ▸ hwidth.ge)
  obtain ⟨after, hafter, hrun⟩ := Circuit.run_becomes hc hs hwidth.ge
  obtain ⟨v, hv, hlast⟩ := applyPauli_range hrun.wellFormed (hrun.qubitCount.trans hwidth) hps'
  have hsame : u.qubitCount = v.qubitCount := by
    rw [hend.qubitCount, hstart.qubitCount, hlast.qubitCount, hrun.qubitCount]
  refine ⟨before, u, after, v, hbefore, hu, hafter, hv, hend.wellFormed, hlast.wellFormed, hsame,
    fun b => ?_⟩
  rw [hend.amp, hstart.amp, hlast.amp, hrun.amp, ← LinearMap.comp_apply, hcarry]
  rfl

/-- An `X` and a `Z` before the circuit that entangles two qubits. -/
theorem clifford_carries_strings_bell :
    bellCircuit.FactoryBuilt ∧ bellCircuit.isClifford = true ∧
    ∃ (sign : ℂ) (ps' : List Pauli), (sign = 1 ∨ sign = -1) ∧ ps'.length = 2 ∧
      ∃ before u after v : StateVector ℝ,
        (basisState 2 1 : StateVector ℝ).applyPauli [0, 1] [] [.X, .Z] = .ok before ∧
        bellCircuit.run before = .ok () u ∧
        bellCircuit.run (basisState 2 1 : StateVector ℝ) = .ok () after ∧
        after.applyPauli [0, 1] [] ps' = .ok v ∧ ∀ b, u.amp b = sign * v.amp b := by
  have hclifford : bellCircuit.isClifford = true := rfl
  have hps : [Pauli.X, Pauli.Z].length = bellCircuit.qubitCount := rfl
  obtain ⟨sign, ps', hsign, hps', hall⟩ :=
    clifford_carries_strings bellCircuit_factoryBuilt hclifford hps
  obtain ⟨before, u, after, v, hbefore, hu, hafter, hv, -, -, -, hamp⟩ :=
    hall _ (StateVector.wellFormed_basisState 2 1) rfl
  exact ⟨bellCircuit_factoryBuilt, hclifford, sign, ps', hsign, hps', before, u, after, v, hbefore,
    hu, hafter, hv, hamp⟩

end GateCircuit
