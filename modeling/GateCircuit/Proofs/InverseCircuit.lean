/-
# The inverse of a circuit

Every gate but the projections and the matrices that a user supplies has an inverse of its own sort: the
gate itself, its partner in the table, or the same gate with its angles turned round. The matrix of the
inverse is the conjugate transpose, two equal strings cancel, and opposite angles add up to nothing. So on
its operands, controls included, the inverse undoes the gate, and the inverses in reverse order undo a
circuit from its end to its start.

Key definitions: `GateKind.inverse`, `GateKind.Reversible`, `Gate.inverse`, `Circuit.inverse`.
Key theorems: `toMatrix_inverse`, `Gate.FactoryBuilt.inverse`, `Gate.FactoryBuilt.inverse_comp`,
`gatesOperator_inverse`, `inverse_circuit_undoes`.
-/
import Mathlib
import GateCircuit.Proofs.CommutingEvolution
import GateCircuit.Proofs.Support
import GateCircuit.Proofs.Unitarity

namespace GateCircuit

open scoped ComplexConjugate Matrix

/-! ### Inverses -/

section Inverses

variable {R : Type} [Scalar R]

/-- The gate that undoes a gate on one qubit. The projections have none and stay as they are. -/
def OneQubitGate.inverse : OneQubitGate R → OneQubitGate R
  | s => sdg
  | sdg => s
  | sx => sxdg
  | sxdg => sx
  | sy => sydg
  | sydg => sy
  | t => tdg
  | tdg => t
  | rx angle => rx (-angle)
  | ry angle => ry (-angle)
  | rz angle => rz (-angle)
  | u1 lambda => u1 (-lambda)
  | u2 phi lambda => u3 (-Scalar.half Scalar.pi) (-lambda) (-phi)
  | u3 theta phi lambda => u3 (-theta) (-lambda) (-phi)
  | gate => gate

/-- The named gate that undoes a named gate. -/
def NamedGate.inverse : NamedGate R → NamedGate R
  | single gate => single gate.inverse
  | gate => gate

/-- The operation that undoes an operation. A matrix supplied by a user stays as it is. -/
def GateKind.inverse : GateKind R → GateKind R
  | named gate => named gate.inverse
  | rotation paulis angle => rotation paulis (-angle)
  | kind => kind

/-- Neither a projection nor a matrix supplied by a user. -/
structure GateKind.Reversible (kind : GateKind R) : Prop where
  not_p0 : kind ≠ .named (.single .p0)
  not_p1 : kind ≠ .named (.single .p1)
  not_dense : ∀ entries, kind ≠ .dense entries

/-- The inverse operation on the same operands. -/
def Gate.inverse (g : Gate R) : Gate R := { g with kind := g.kind.inverse }

/-- The inverses of the gates, last to first. -/
def Circuit.inverse (c : Circuit (Gate R)) : Circuit (Gate R) :=
  { c with gates := c.gates.reverse.map Gate.inverse }

/-! ### The inverse of a built gate is a built gate -/

theorem GateKind.isPauliString_inverse (kind : GateKind R) :
    kind.inverse.isPauliString = kind.isPauliString := by
  cases kind <;> rfl

theorem GateKind.controlCount_inverse (kind : GateKind R) :
    kind.inverse.controlCount = kind.controlCount := by
  cases kind with
  | named gate => cases gate <;> rfl
  | pauli ps => rfl
  | rotation ps angle => rfl
  | dense entries => rfl

theorem GateKind.dense_of_inverse {kind : GateKind R} {entries : Array (Amplitude R)}
    (h : kind.inverse = .dense entries) : kind = .dense entries := by
  cases kind with
  | named gate => cases h
  | pauli ps => cases h
  | rotation ps angle => cases h
  | dense entries' => exact h

theorem NamedGate.targetCount_inverse (gate : NamedGate R) :
    gate.inverse.targetCount = gate.targetCount := by
  cases gate <;> rfl

/-- An operation and its inverse are as wide. -/
theorem Gate.checkSize_inverse {kind : GateKind R} {ts : List Qubit}
    (h : checkSize kind ts = .ok ()) : checkSize kind.inverse ts = .ok () := by
  cases kind with
  | named gate =>
    simp only [GateKind.inverse, checkSize, NamedGate.targetCount_inverse] at h ⊢
    split at h
    · rename_i hlen
      rw [if_pos hlen]
    · cases h
  | pauli ps => exact h
  | rotation ps angle =>
    simp only [GateKind.inverse, checkSize] at h ⊢
    split at h
    · rename_i hlen
      rw [if_pos hlen]
    · cases h
  | dense entries => exact h

theorem Gate.FactoryBuilt.inverse {g : Gate R} (hg : g.FactoryBuilt) : g.inverse.FactoryBuilt := by
  obtain ⟨hts, hsize, hnd, hcount, hmem⟩ := Gate.factoryBuilt_iff.mp hg
  refine Gate.factoryBuilt_iff.mpr ⟨?_, checkSize_inverse hsize, hnd, ?_, ?_⟩
  · show g.targets = [] → g.kind.inverse.isPauliString = true
    rw [GateKind.isPauliString_inverse]
    exact hts
  · show g.controls.length = g.kind.inverse.controlCount
    rw [hcount, GateKind.controlCount_inverse]
  · exact fun entries hkind => hmem entries (GateKind.dense_of_inverse hkind)

end Inverses

theorem Circuit.FactoryBuilt.inverse {c : Circuit (Gate ℝ)} (hc : c.FactoryBuilt) :
    c.inverse.FactoryBuilt where
  inRegister := by
    intro g hg
    obtain ⟨g', hg', rfl⟩ := List.mem_map.mp hg
    exact hc.inRegister g' (List.mem_reverse.mp hg')
  built := by
    intro g hg
    obtain ⟨g', hg', rfl⟩ := List.mem_map.mp hg
    exact (hc.built g' (List.mem_reverse.mp hg')).inverse

/-! ### The matrix of the inverse -/

section Matrices

theorem conj_exp (x : ℝ) :
    conj (Complex.exp (x * Complex.I)) = Complex.exp ((-x : ℝ) * Complex.I) := by
  rw [← Complex.exp_conj, map_mul, Complex.conj_I, Complex.conj_ofReal]
  push_cast
  ring_nf

/-- The conjugate transpose of a matrix with two rows. -/
theorem conjTranspose_two (a b c d : ℂ) :
    (!![a, b; c, d])ᴴ = !![conj a, conj c; conj b, conj d] := by
  ext row col
  fin_cases row <;> fin_cases col <;> rfl

theorem pauli_conjTranspose (p : Pauli) : p.toMatrixᴴ = p.toMatrix := by
  cases p <;> simp [Pauli.toMatrix, conjTranspose_two]

theorem u3ToMatrix_inverse (theta phi lambda : ℝ) :
    OneQubitGate.u3ToMatrix (-theta) (-lambda) (-phi) =
      (OneQubitGate.u3ToMatrix theta phi lambda)ᴴ := by
  have hangle : -lambda + -phi = -(phi + lambda) := by ring
  rw [OneQubitGate.u3ToMatrix, OneQubitGate.u3ToMatrix, conjTranspose_two, hangle]
  simp only [map_neg, map_mul, Complex.conj_ofReal, conj_exp, neg_div, Real.cos_neg, Real.sin_neg,
    Complex.ofReal_neg, neg_mul, neg_neg]

/-- **The matrix of the inverse is the conjugate transpose.** -/
theorem toMatrix_inverse (gate : OneQubitGate ℝ) : gate.inverse.toMatrix = gate.toMatrixᴴ := by
  cases gate with
  | id => exact (pauli_conjTranspose .I).symm
  | x => exact (pauli_conjTranspose .X).symm
  | y => exact (pauli_conjTranspose .Y).symm
  | z => exact (pauli_conjTranspose .Z).symm
  | h => simp [OneQubitGate.inverse, OneQubitGate.toMatrix, conjTranspose_two]
  | s | sdg => simp [OneQubitGate.inverse, OneQubitGate.toMatrix, conjTranspose_two]
  | sx | sxdg | sy | sydg =>
    simp only [OneQubitGate.inverse, OneQubitGate.toMatrix, conjTranspose_two, map_neg,
      conj_half_one_add_I, conj_half_one_sub_I]
  | t | tdg =>
    simp only [OneQubitGate.inverse, OneQubitGate.toMatrix, conjTranspose_two, conj_exp, map_one,
      map_zero, neg_neg]
  | p0 | p1 =>
    simp only [OneQubitGate.inverse, OneQubitGate.toMatrix, Matrix.diagonal_conjTranspose]
    congr 1
    ext row
    fin_cases row <;> simp
  | rx angle =>
    simp only [OneQubitGate.inverse, OneQubitGate.toMatrix, conjTranspose_two, map_neg, map_mul,
      Complex.conj_ofReal, Complex.conj_I, neg_div, Real.cos_neg, Real.sin_neg, Complex.ofReal_neg,
      neg_mul, mul_neg]
  | ry angle =>
    simp only [OneQubitGate.inverse, OneQubitGate.toMatrix, conjTranspose_two, map_neg,
      Complex.conj_ofReal, neg_div, Real.cos_neg, Real.sin_neg, Complex.ofReal_neg, neg_neg]
  | rz angle =>
    simp only [OneQubitGate.inverse, OneQubitGate.toMatrix, conjTranspose_two, conj_exp, map_zero,
      neg_div, neg_neg]
  | u1 lambda =>
    simp only [OneQubitGate.inverse, OneQubitGate.toMatrix, conjTranspose_two, conj_exp, map_one,
      map_zero]
  | u2 phi lambda =>
    rw [OneQubitGate.inverse, scalar_half]
    exact u3ToMatrix_inverse (Real.pi / 2) phi lambda
  | u3 theta phi lambda => exact u3ToMatrix_inverse theta phi lambda

theorem swap_conjTranspose : swapMatrixᴴ = swapMatrix := by
  ext row col
  fin_cases row <;> fin_cases col <;> simp [swapMatrix, Matrix.conjTranspose_apply]

theorem entriesMatrix_inverse (gate : NamedGate ℝ) :
    entriesMatrix (2 ^ gate.targetCount) gate.inverse.matrix =
      (entriesMatrix (2 ^ gate.targetCount) gate.matrix)ᴴ := by
  cases gate with
  | single gate =>
    show entriesMatrix 2 gate.inverse.matrix = (entriesMatrix 2 gate.matrix)ᴴ
    rw [entriesMatrix_oneQubit, entriesMatrix_oneQubit, toMatrix_inverse]
  | cx =>
    show entriesMatrix 2 Pauli.X.matrix = (entriesMatrix 2 Pauli.X.matrix)ᴴ
    rw [entriesMatrix_pauli, pauli_conjTranspose]
  | cz =>
    show entriesMatrix 2 Pauli.Z.matrix = (entriesMatrix 2 Pauli.Z.matrix)ᴴ
    rw [entriesMatrix_pauli, pauli_conjTranspose]
  | swap =>
    show entriesMatrix 4 NamedGate.swap.matrix = (entriesMatrix 4 NamedGate.swap.matrix)ᴴ
    rw [entriesMatrix_swap, swap_conjTranspose]

end Matrices

/-! ### Gates and circuits -/

section Operators

variable {n : ℕ} {ts cs : List Qubit} {ps : List Pauli}

theorem targets_disjoint_controls (hfit : FitOperands n (ts ++ cs)) : ts.Disjoint cs :=
  List.disjoint_of_nodup_append hfit.distinct

/-- A matrix under controls is undone by a matrix that undoes it. -/
theorem matrixCall_comp (hfit : FitOperands n (ts ++ cs)) {entries entries' : Array (Amplitude ℝ)}
    (hsize : blockSize ts.length = 2 ^ ts.length)
    (hmul : entriesMatrix (2 ^ ts.length) entries' * entriesMatrix (2 ^ ts.length) entries = 1) :
    (KernelCall.matrix ts cs entries').operator ∘ₗ (KernelCall.matrix ts cs entries).operator =
      LinearMap.id := by
  have hts : ts.Nodup := (List.nodup_append.mp hfit.distinct).1
  have hacts : ActsOn ts (matrixOperator ts (entriesMatrix (2 ^ ts.length) entries')) :=
    actsOn_blockOperator hts le_rfl _
  rw [operator_matrix, operator_matrix, hsize, controlled_comp hacts (targets_disjoint_controls hfit),
    ← matrixOperator_mul rfl hts, hmul, matrixOperator_one rfl hts, controlled_id]

/-- A string under controls undoes itself. -/
theorem pauliCall_comp (hfit : FitOperands n (ts ++ cs)) (hlen : ts.length = ps.length) :
    (KernelCall.pauli ts cs ps).operator ∘ₗ (KernelCall.pauli ts cs ps).operator = LinearMap.id := by
  have hself := stringOperator_self (nodup_fst_zip hfit hlen)
  rw [KernelCall.operator,
    controlled_comp (actsOn_zip_string ts ps) (targets_disjoint_controls hfit), hself, controlled_id]

/-- Two rotations about one string under the same controls come to one by the sum of their angles. -/
theorem rotationCall_add (hfit : FitOperands n (ts ++ cs)) (hlen : ts.length = ps.length)
    (a b : ℝ) : (KernelCall.rotation ts cs ps b).operator ∘ₗ
      (KernelCall.rotation ts cs ps a).operator = (KernelCall.rotation ts cs ps (a + b)).operator := by
  have hacts : ActsOn ts (turn (ts.zip ps) (b / 2)) := actsOn_zip_mix ts ps _ _
  have hturn : turn (ts.zip ps) (b / 2) ∘ₗ turn (ts.zip ps) (a / 2) =
      turn (ts.zip ps) ((a + b) / 2) := by
    rw [add_comm a b, add_div, turn_add (nodup_fst_zip hfit hlen)]
    rfl
  show controlled cs (turn (ts.zip ps) (b / 2)) ∘ₗ controlled cs (turn (ts.zip ps) (a / 2)) =
    controlled cs (turn (ts.zip ps) ((a + b) / 2))
  rw [controlled_comp hacts (targets_disjoint_controls hfit), hturn]

/-- A rotation by nothing. -/
theorem rotationCall_zero (ts cs : List Qubit) (ps : List Pauli) :
    (KernelCall.rotation ts cs ps 0).operator = LinearMap.id := by
  show controlled cs (turn (ts.zip ps) (0 / 2)) = _
  rw [zero_div, turn_zero]
  exact controlled_id cs

/-- A rotation under controls is undone by the opposite angle. -/
theorem rotationCall_comp (hfit : FitOperands n (ts ++ cs)) (hlen : ts.length = ps.length)
    (angle : ℝ) : (KernelCall.rotation ts cs ps (-angle)).operator ∘ₗ
      (KernelCall.rotation ts cs ps angle).operator = LinearMap.id := by
  rw [rotationCall_add hfit hlen, add_neg_cancel, rotationCall_zero]

/-- **The inverse of a gate undoes it**, on all its operands. -/
theorem Gate.FactoryBuilt.inverse_comp {g : Gate ℝ} (hg : g.FactoryBuilt)
    (hin : ∀ q ∈ QuantumGate.operands g, q < n) (hrev : g.kind.Reversible) :
    g.inverse.kernel.operator ∘ₗ g.kernel.operator = LinearMap.id := by
  have hfit := hg.fitOperands hin
  cases hg.calls with
  | @named gate hkind hlen hkernel =>
    have hinverse : g.inverse.kernel = .matrix g.targets g.controls gate.inverse.matrix := by
      rw [Gate.inverse, hkind]
      rfl
    have hunitary := named_unitary gate (fun h => hrev.not_p0 (h ▸ hkind))
      (fun h => hrev.not_p1 (h ▸ hkind))
    rw [← entriesMatrix_inverse, ← hlen] at hunitary
    rw [hinverse, hkernel]
    exact matrixCall_comp hfit (hlen ▸ blockSize_targetCount gate) hunitary
  | @pauli ps hkind hlen hkernel =>
    have hinverse : g.inverse.kernel = .pauli g.targets g.controls ps := by
      rw [Gate.inverse, hkind]
      rfl
    rw [hinverse, hkernel]
    exact pauliCall_comp hfit hlen
  | @rotation ps angle hkind hlen hkernel =>
    have hinverse : g.inverse.kernel = .rotation g.targets g.controls ps (-angle) := by
      rw [Gate.inverse, hkind]
      rfl
    rw [hinverse, hkernel]
    exact rotationCall_comp hfit hlen angle
  | @dense entries hkind hsize hkernel => exact absurd hkind (hrev.not_dense entries)

/-- A list of gates is undone by the inverses in reverse order, the innermost pair first. -/
theorem gatesOperator_inverse {gs : List (Gate ℝ)}
    (h : ∀ g ∈ gs, g.inverse.kernel.operator ∘ₗ g.kernel.operator = LinearMap.id) :
    gatesOperator (gs.reverse.map Gate.inverse) ∘ₗ gatesOperator gs = LinearMap.id := by
  induction gs with
  | nil => rfl
  | cons g gs ih =>
    obtain ⟨hg, hgs⟩ := List.forall_mem_cons.mp h
    have hpeel : gatesOperator ((g :: gs).reverse.map Gate.inverse) =
        g.inverse.kernel.operator ∘ₗ gatesOperator (gs.reverse.map Gate.inverse) := by
      rw [List.reverse_cons, List.map_append, gatesOperator_append]
      rfl
    calc gatesOperator ((g :: gs).reverse.map Gate.inverse) ∘ₗ gatesOperator (g :: gs)
        = g.inverse.kernel.operator ∘ₗ
            (gatesOperator (gs.reverse.map Gate.inverse) ∘ₗ gatesOperator gs) ∘ₗ
              g.kernel.operator := by
          rw [hpeel, gatesOperator, LinearMap.comp_assoc, LinearMap.comp_assoc]
      _ = LinearMap.id := by rw [ih hgs, LinearMap.id_comp, hg]

end Operators

/-- **The reversed circuit of inverses undoes a circuit.** Take a circuit of built gates without
projections and matrices supplied by a user, put the gates in reverse order, and replace each by its
inverse on the same operands. On every register that is wide enough the circuit runs, and from where it
ends the new circuit runs back to the register that it started from. -/
theorem inverse_circuit_undoes {c : Circuit (Gate ℝ)} (hc : c.FactoryBuilt)
    (hrev : ∀ g ∈ c.gates, g.kind.Reversible) {s : StateVector ℝ} (hs : s.WellFormed)
    (hwide : c.qubitCount ≤ s.qubitCount) :
    ∃ t, c.run s = .ok () t ∧ c.inverse.run t = .ok () s := by
  obtain ⟨t, ht, hbecomes⟩ := Circuit.run_becomes hc hs hwide
  have hwide' : c.inverse.qubitCount ≤ t.qubitCount := by
    rw [hbecomes.qubitCount]
    exact hwide
  obtain ⟨u, hu, hback⟩ := Circuit.run_becomes hc.inverse hbecomes.wellFormed hwide'
  have hcancel : gatesOperator c.inverse.gates ∘ₗ gatesOperator c.gates = LinearMap.id :=
    gatesOperator_inverse fun g hg =>
      (hc.built g hg).inverse_comp (hc.inRegister g hg) (hrev g hg)
  have hround : s.Becomes LinearMap.id u := hcancel ▸ hbecomes.trans hback
  have hsame : u = s := hround.unique (StateVector.Becomes.refl hs)
  exact ⟨t, ht, hsame ▸ hu⟩

/-- A gate with two angles, a controlled `x`, an exchange, and a rotation about two operators. -/
noncomputable def reversibleCircuit : Circuit (Gate ℝ) :=
  ⟨3, [Gate.single (.u2 1 2) 0, { kind := .named .cx, targets := [1], controls := [0] },
    { kind := .named .swap, targets := [2, 0], controls := [] },
    { kind := .rotation [.Y, .Z] (1 / 2), targets := [1, 2], controls := [] }]⟩

theorem reversibleCircuit_factoryBuilt : reversibleCircuit.FactoryBuilt where
  inRegister := by
    unfold Circuit.InRegister
    decide
  built := by
    simp only [reversibleCircuit, List.forall_mem_cons]
    refine ⟨?_, ?_, ?_, ?_, fun g hg => absurd hg List.not_mem_nil⟩
    · exact ⟨⟨.single (.u2 1 2) 0, none, _, rfl, rfl⟩, nofun⟩
    · exact ⟨⟨.cx 0 1, none, _, rfl, rfl⟩, nofun⟩
    · exact ⟨⟨.swap 2 0, none, _, rfl, rfl⟩, nofun⟩
    · exact ⟨⟨.rotation [1, 2] [.Y, .Z] (1 / 2), none, _, rfl, rfl⟩, nofun⟩

/-- There and back, on a register with a qubit to spare. -/
theorem inverse_circuit_undoes_reversible :
    reversibleCircuit.FactoryBuilt ∧ (∀ g ∈ reversibleCircuit.gates, g.kind.Reversible) ∧
    ∃ t : StateVector ℝ, reversibleCircuit.run (basisState 4 9 : StateVector ℝ) = .ok () t ∧
      reversibleCircuit.inverse.run t = .ok () (basisState 4 9 : StateVector ℝ) := by
  have hrev : ∀ g ∈ reversibleCircuit.gates, g.kind.Reversible := by
    simp only [reversibleCircuit, List.forall_mem_cons]
    exact ⟨⟨nofun, nofun, nofun⟩, ⟨nofun, nofun, nofun⟩, ⟨nofun, nofun, nofun⟩,
      ⟨nofun, nofun, nofun⟩, fun g hg => absurd hg List.not_mem_nil⟩
  have hwide : reversibleCircuit.qubitCount ≤ (basisState 4 9 : StateVector ℝ).qubitCount := by
    show 3 ≤ 4
    decide
  exact ⟨reversibleCircuit_factoryBuilt, hrev, inverse_circuit_undoes reversibleCircuit_factoryBuilt
    hrev (StateVector.wellFormed_basisState 4 9) hwide⟩

end GateCircuit
