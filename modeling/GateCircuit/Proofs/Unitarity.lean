/-
# Runs preserve inner products

Pauli strings and rotations preserve inner products whatever their angles, and so does a matrix that is
unitary; controls keep this, because the indices at which they are set are a union of blocks that the
gate mixes among themselves. A projection makes no norm larger. So a run of a circuit preserves inner
products if it has no projections, and makes no norm larger in any case.

Key theorems: `preserves_matrixCall`, `preserves_rotationCall`, `unitary_size`,
`Gate.FactoryBuilt.preserves`, `Gate.FactoryBuilt.shrinks`, `Circuit.FactoryBuilt.preserves`,
`Circuit.FactoryBuilt.shrinks`, `execution_preserves_inner`.
-/
import Mathlib
import GateCircuit.Proofs.CircuitOperator
import GateCircuit.Proofs.GateMatrices
import GateCircuit.Proofs.InnerProduct

namespace GateCircuit

open scoped ComplexConjugate Matrix

/-! ### Kernel calls -/

section Calls

variable {n : ℕ} {ts cs : List Qubit} {ps : List Pauli}

/-- A call with a unitary matrix preserves inner products. -/
theorem preserves_matrixCall (hfit : FitOperands n (ts ++ cs)) {entries : Array (Amplitude ℝ)}
    (hsize : blockSize ts.length = 2 ^ ts.length)
    (hM : (entriesMatrix (2 ^ ts.length) entries)ᴴ * entriesMatrix (2 ^ ts.length) entries = 1) :
    Preserves (Finset.range (2 ^ n)) (KernelCall.matrix ts cs entries).operator := by
  have hts : ts.Nodup := (List.nodup_append.mp hfit.distinct).1
  rw [operator_matrix, hsize]
  exact preserves_controlled
    (preserves_matrixOperator rfl hts (replaced_mem_controlledIndices hfit) hM)

theorem nodup_fst_zip (hfit : FitOperands n (ts ++ cs)) (hlen : ts.length = ps.length) :
    ((ts.zip ps).map Prod.fst).Nodup := by
  rw [List.map_fst_zip hlen.le]
  exact (List.nodup_append.mp hfit.distinct).1

theorem preserves_pauliCall (hfit : FitOperands n (ts ++ cs)) (hlen : ts.length = ps.length) :
    Preserves (Finset.range (2 ^ n)) (KernelCall.pauli ts cs ps).operator := by
  rw [KernelCall.operator, ← mixOperator_zero_one]
  exact preserves_controlled (preserves_mixOperator (nodup_fst_zip hfit hlen)
    (flipped_mem_controlledIndices hfit ps) (by simp) (by simp))

/-- A rotation preserves inner products, whatever its angle. -/
theorem preserves_rotationCall (hfit : FitOperands n (ts ++ cs)) (hlen : ts.length = ps.length)
    (angle : ℝ) : Preserves (Finset.range (2 ^ n)) (KernelCall.rotation ts cs ps angle).operator := by
  have hone := cos_mul_cos_add (angle / 2)
  refine preserves_controlled (preserves_mixOperator (nodup_fst_zip hfit hlen)
    (flipped_mem_controlledIndices hfit ps) ?_ ?_)
  · simp only [map_neg, map_mul, Complex.conj_ofReal, Complex.conj_I]
    linear_combination hone - (Real.sin (angle / 2) : ℂ) ^ 2 * Complex.I_sq
  · simp only [map_neg, map_mul, Complex.conj_ofReal, Complex.conj_I]
    ring

end Calls

/-! ### Gates -/

/-- A unitary matrix has an entry in its last column, so an array that spells one has at least as many
entries as the matrix has columns. -/
theorem unitary_size {k : ℕ} {entries : Array (Amplitude ℝ)}
    (hM : (entriesMatrix (2 ^ k) entries)ᴴ * entriesMatrix (2 ^ k) entries = 1) :
    2 ^ k ≤ entries.size := by
  have hpos : 0 < 2 ^ k := by positivity
  by_contra hsmall
  have hcolumn : ∀ row : Fin (2 ^ k), entriesMatrix (2 ^ k) entries row ⟨2 ^ k - 1, by omega⟩ = 0 := by
    intro row
    have hbeyond : entries.size ≤ row * 2 ^ k + (2 ^ k - 1) := by omega
    change (entries.getD (row * 2 ^ k + (2 ^ k - 1)) 0).toComplex = 0
    rw [getD_of_size_le hbeyond]
    rfl
  have hdiag := congrFun (congrFun hM ⟨2 ^ k - 1, by omega⟩) ⟨2 ^ k - 1, by omega⟩
  rw [Matrix.mul_apply, Matrix.one_apply_eq] at hdiag
  simp [hcolumn] at hdiag

namespace Gate

variable {g : Gate ℝ} {n : ℕ}

/-- The matrix of a dense gate is unitary. -/
def UnitaryIfDense (g : Gate ℝ) : Prop :=
  ∀ entries, g.kind = .dense entries →
    (entriesMatrix (2 ^ g.targets.length) entries)ᴴ *
      entriesMatrix (2 ^ g.targets.length) entries = 1

theorem FactoryBuilt.fitOperands (hg : g.FactoryBuilt) (hin : ∀ q ∈ QuantumGate.operands g, q < n) :
    FitOperands n (g.targets ++ g.controls) :=
  ⟨hin, hg.checked.2⟩

theorem blockSize_targetCount (gate : NamedGate ℝ) :
    blockSize gate.targetCount = 2 ^ gate.targetCount := by
  cases gate <;> rfl

/-- A dense gate with a unitary matrix has so few targets that its number of rows fits a word. -/
theorem FactoryBuilt.blockSize_dense (hg : g.FactoryBuilt) {entries : Array (Amplitude ℝ)}
    (hkind : g.kind = .dense entries) (hM : g.UnitaryIfDense) :
    blockSize g.targets.length = 2 ^ g.targets.length := by
  have hrows := unitary_size (hM entries hkind)
  have hmemory := hg.inMemory entries hkind
  have hword : 2 ^ g.targets.length < 2 ^ 64 := by
    unfold maxWord at hmemory
    omega
  exact blockSize_eq ((Nat.pow_lt_pow_iff_right (by omega)).mp hword)

/-- **A built gate other than a projection preserves inner products.** -/
theorem FactoryBuilt.preserves (hg : g.FactoryBuilt) (hin : ∀ q ∈ QuantumGate.operands g, q < n)
    (hM : g.UnitaryIfDense) (h₀ : g.kind ≠ .named (.single .p0))
    (h₁ : g.kind ≠ .named (.single .p1)) :
    Preserves (Finset.range (2 ^ n)) g.kernel.operator := by
  have hfit := hg.fitOperands hin
  cases hg.calls with
  | @named gate hkind hlen hkernel =>
    rw [hkernel]
    have hunitary := named_unitary gate (fun h => h₀ (h ▸ hkind)) (fun h => h₁ (h ▸ hkind))
    rw [← hlen] at hunitary
    exact preserves_matrixCall hfit (hlen ▸ blockSize_targetCount gate) hunitary
  | pauli hkind hlen hkernel =>
    rw [hkernel]
    exact preserves_pauliCall hfit hlen
  | rotation hkind hlen hkernel =>
    rw [hkernel]
    exact preserves_rotationCall hfit hlen _
  | dense hkind hsize hkernel =>
    rw [hkernel]
    exact preserves_matrixCall hfit (hg.blockSize_dense hkind hM) (hM _ hkind)

/-- A diagonal matrix on one qubit makes no norm larger if its entries have length at most one. -/
theorem shrinks_diagonalCall (q : Qubit) (cs : List Qubit) {entries : Array (Amplitude ℝ)}
    {d : Fin 2 → ℂ} (hentries : entriesMatrix 2 entries = Matrix.diagonal d)
    (hd : ∀ row, Complex.normSq (d row) ≤ 1) (S : Finset ℕ) :
    Shrinks S (KernelCall.matrix [q] cs entries).operator := by
  rw [operator_matrix_single, hentries]
  exact shrinks_controlled (shrinks_diagonal rfl (List.nodup_singleton q) hd)

/-- A projection keeps or drops each amplitude. -/
theorem FactoryBuilt.shrinks_projection (hg : g.FactoryBuilt) {gate : OneQubitGate ℝ}
    (hkind : g.kind = .named (.single gate)) {d : Fin 2 → ℂ} (hgate : gate.toMatrix = Matrix.diagonal d)
    (hd : ∀ row, Complex.normSq (d row) ≤ 1) (S : Finset ℕ) : Shrinks S g.kernel.operator := by
  obtain ⟨q, hq⟩ : ∃ q, g.targets = [q] := by
    refine List.length_eq_one_iff.mp ?_
    cases hg.calls with
    | named hkind' hlen =>
      rw [hkind, GateKind.named.injEq] at hkind'
      rw [hlen, ← hkind']
      rfl
    | _ hkind' =>
      rw [hkind] at hkind'
      cases hkind'
  have hkernel : g.kernel = .matrix [q] g.controls gate.matrix := by
    rw [kernel, hkind, hq]
    rfl
  rw [hkernel]
  exact shrinks_diagonalCall q g.controls ((entriesMatrix_oneQubit gate).trans hgate) hd S

/-- **A built gate makes no norm larger.** -/
theorem FactoryBuilt.shrinks (hg : g.FactoryBuilt) (hin : ∀ q ∈ QuantumGate.operands g, q < n)
    (hM : g.UnitaryIfDense) : Shrinks (Finset.range (2 ^ n)) g.kernel.operator := by
  by_cases h₀ : g.kind = .named (.single .p0)
  · refine hg.shrinks_projection h₀ rfl (fun row => ?_) _
    fin_cases row <;> simp
  by_cases h₁ : g.kind = .named (.single .p1)
  · refine hg.shrinks_projection h₁ rfl (fun row => ?_) _
    fin_cases row <;> simp
  · exact (hg.preserves hin hM h₀ h₁).shrinks

end Gate

/-! ### Runs -/

section Circuits

variable {c : Circuit (Gate ℝ)} {n : ℕ}

/-- A circuit without projections preserves the inner products of every wide register. -/
theorem Circuit.FactoryBuilt.preserves (hc : c.FactoryBuilt) (hM : ∀ g ∈ c.gates, g.UnitaryIfDense)
    (hproj : ∀ g ∈ c.gates, g.kind ≠ .named (.single .p0) ∧ g.kind ≠ .named (.single .p1))
    (hwide : c.qubitCount ≤ n) : Preserves (Finset.range (2 ^ n)) (gatesOperator c.gates) :=
  gatesOperator_induction Preserves.id Preserves.comp fun g hg => (hc.built g hg).preserves
    (fun q hq => (hc.inRegister g hg q hq).trans_le hwide) (hM g hg) (hproj g hg).1 (hproj g hg).2

theorem Circuit.FactoryBuilt.shrinks (hc : c.FactoryBuilt) (hM : ∀ g ∈ c.gates, g.UnitaryIfDense)
    (hwide : c.qubitCount ≤ n) : Shrinks (Finset.range (2 ^ n)) (gatesOperator c.gates) :=
  gatesOperator_induction Shrinks.id Shrinks.comp fun g hg => (hc.built g hg).shrinks
    (fun q hq => (hc.inRegister g hg q hq).trans_le hwide) (hM g hg)

end Circuits

/-- **A run preserves inner products, and makes no norm larger.** A circuit of built gates whose dense
matrices are unitary runs on all registers that are wide enough. If none of its gates is a projection
then the inner product of two registers after the run is what it was before, and so is the squared norm
of each. With projections the squared norm after the run is at most what it was. -/
theorem execution_preserves_inner {c : Circuit (Gate ℝ)} {s t : StateVector ℝ} (hc : c.FactoryBuilt)
    (hM : ∀ g ∈ c.gates, ∀ entries, g.kind = .dense entries →
      (entriesMatrix (2 ^ g.targets.length) entries)ᴴ *
        entriesMatrix (2 ^ g.targets.length) entries = 1)
    (hs : s.WellFormed) (ht : t.WellFormed) (hwidth : s.qubitCount = t.qubitCount)
    (hwide : c.qubitCount ≤ s.qubitCount) :
    ∃ s' t' : StateVector ℝ, c.run s = .ok () s' ∧ c.run t = .ok () t' ∧
      ((∀ g ∈ c.gates, g.kind ≠ .named (.single .p0) ∧ g.kind ≠ .named (.single .p1)) →
        (∃ a, s.inner? t = some a ∧ s'.inner? t' = some a) ∧ s'.normSq = s.normSq) ∧
      s'.normSq ≤ s.normSq := by
  obtain ⟨s', hs', hbecomes⟩ := Circuit.run_becomes hc hs hwide
  obtain ⟨t', ht', hbecomes'⟩ := Circuit.run_becomes hc ht (hwidth ▸ hwide)
  have hn := hbecomes.qubitCount
  have hwidth' : s'.qubitCount = t'.qubitCount := by
    rw [hn, hbecomes'.qubitCount, hwidth]
  have hnorm := StateVector.normSq_eq hs
  have hnorm' := StateVector.normSq_eq hbecomes.wellFormed
  rw [hn, hbecomes.amp] at hnorm'
  refine ⟨s', t', hs', ht', fun hproj => ⟨?_, ?_⟩, ?_⟩
  · obtain ⟨a, ha, hoverlap⟩ := StateVector.inner?_eq hs ht hwidth
    obtain ⟨a', ha', hoverlap'⟩ :=
      StateVector.inner?_eq hbecomes.wellFormed hbecomes'.wellFormed hwidth'
    rw [hn, hbecomes.amp, hbecomes'.amp, hc.preserves hM hproj hwide, ← hoverlap] at hoverlap'
    exact ⟨a, ha, Amplitude.toComplex_injective hoverlap' ▸ ha'⟩
  · rw [hnorm, hnorm', (hc.preserves hM hproj hwide).weight]
  · rw [hnorm, hnorm']
    exact hc.shrinks hM hwide s.amp

/-- A Hadamard gate, and a `y` given by its matrix. -/
noncomputable def denseCircuit : Circuit (Gate ℝ) :=
  ⟨2, [Gate.single .h 0, { kind := .dense Pauli.Y.matrix, targets := [1], controls := [] }]⟩

theorem denseCircuit_factoryBuilt : denseCircuit.FactoryBuilt where
  inRegister := by
    intro g hg q hq
    simp only [denseCircuit, List.mem_pair] at hg
    rcases hg with rfl | rfl
    · obtain rfl : q = 0 := by simpa [QuantumGate.operands, QuantumGate.targets,
        QuantumGate.controls, Gate.single] using hq
      show 0 < 2
      decide
    · obtain rfl : q = 1 := by simpa [QuantumGate.operands, QuantumGate.targets,
        QuantumGate.controls] using hq
      show 1 < 2
      decide
  built := by
    intro g hg
    simp only [denseCircuit, List.mem_pair] at hg
    rcases hg with rfl | rfl
    · exact ⟨⟨.single .h 0, none, _, rfl, rfl⟩, by simp [Gate.single]⟩
    · refine ⟨⟨.dense [1] Pauli.Y.matrix, none, _, rfl, rfl⟩, ?_⟩
      intro entries hentries
      obtain rfl := GateKind.dense.inj hentries
      show 4 < maxWord
      decide

/-- Two basis states of a wider register after that circuit. -/
theorem execution_preserves_inner_dense :
    ∃ s' t' : StateVector ℝ, denseCircuit.run (basisState 3 0 : StateVector ℝ) = .ok () s' ∧
      denseCircuit.run (basisState 3 5 : StateVector ℝ) = .ok () t' ∧
      (∃ a, (basisState 3 0 : StateVector ℝ).inner? (basisState 3 5) = some a ∧
        s'.inner? t' = some a) ∧
      s'.normSq = (basisState 3 0 : StateVector ℝ).normSq := by
  have hM : ∀ g ∈ denseCircuit.gates, g.UnitaryIfDense := by
    intro g hg entries hentries
    simp only [denseCircuit, List.mem_pair] at hg
    rcases hg with rfl | rfl
    · cases hentries
    · obtain rfl := GateKind.dense.inj hentries
      show (entriesMatrix 2 Pauli.Y.matrix)ᴴ * entriesMatrix 2 Pauli.Y.matrix = 1
      rw [entriesMatrix_pauli, pauli_unitary]
  have hproj : ∀ g ∈ denseCircuit.gates,
      g.kind ≠ .named (.single .p0) ∧ g.kind ≠ .named (.single .p1) := by
    intro g hg
    simp only [denseCircuit, List.mem_pair] at hg
    rcases hg with rfl | rfl <;> simp [Gate.single]
  have hwide : denseCircuit.qubitCount ≤ (basisState 3 0 : StateVector ℝ).qubitCount := by
    show 2 ≤ 3
    decide
  obtain ⟨s', t', hs', ht', hkeep, -⟩ := execution_preserves_inner denseCircuit_factoryBuilt hM
    (StateVector.wellFormed_basisState 3 0) (StateVector.wellFormed_basisState 3 5) rfl hwide
  exact ⟨s', t', hs', ht', hkeep hproj⟩

end GateCircuit
