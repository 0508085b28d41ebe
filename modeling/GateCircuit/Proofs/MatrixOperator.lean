/-
# Matrices on targets

A matrix with one row for every number that the targets can spell acts on the targets, and products of
matrices act as products of operators. The matrix kernel applies the matrix that its entries spell row
by row; a Pauli operator on one qubit is its matrix of two rows.

Key definitions: `matrixOperator`, `entriesMatrix`, `Pauli.toMatrix`.
Key theorems: `operator_matrix`, `matrixOperator_mul`, `matrixOperator_one`,
`stringOperator_singleton`.
-/
import Mathlib
import GateCircuit.Proofs.PauliMatrix

namespace GateCircuit

/-- The operator of a matrix on the targets. -/
noncomputable def matrixOperator (ts : List Qubit) {dim : ℕ} (M : Matrix (Fin dim) (Fin dim) ℂ) :
    Operator :=
  blockOperator ts dim fun row col =>
    if h : row < dim ∧ col < dim then M ⟨row, h.1⟩ ⟨col, h.2⟩ else 0

/-- The matrix with `dim` rows that row-major entries spell. -/
noncomputable def entriesMatrix (dim : ℕ) (entries : Array (Amplitude ℝ)) :
    Matrix (Fin dim) (Fin dim) ℂ :=
  Matrix.of fun row col => (entries.getD (row * dim + col) 0).toComplex

/-- Only the entries in the rows and columns of the matrix count. -/
theorem blockOperator_congr (ts : List Qubit) {dim : ℕ} {entry entry' : ℕ → ℕ → ℂ}
    (h : ∀ row < dim, ∀ col < dim, entry row col = entry' row col) :
    blockOperator ts dim entry = blockOperator ts dim entry' := by
  refine LinearMap.ext fun ψ => funext fun b => ?_
  rw [blockOperator_apply, blockOperator_apply]
  split
  · rename_i hrow
    refine Finset.sum_congr rfl fun m hm => ?_
    rw [h _ hrow _ (Finset.mem_range.mp hm)]
  · rfl

/-- The matrix kernel applies the matrix of its entries. -/
theorem operator_matrix (ts cs : List Qubit) (entries : Array (Amplitude ℝ)) :
    (KernelCall.matrix ts cs entries).operator =
      controlled cs (matrixOperator ts (entriesMatrix (blockSize ts.length) entries)) := by
  rw [KernelCall.operator, matrixOperator]
  congr 1
  refine blockOperator_congr ts fun row hrow col hcol => ?_
  rw [dif_pos ⟨hrow, hcol⟩]
  rfl

/-- On one qubit the matrix has two rows. -/
theorem operator_matrix_single (q : Qubit) (cs : List Qubit) (entries : Array (Amplitude ℝ)) :
    (KernelCall.matrix [q] cs entries).operator =
      controlled cs (matrixOperator [q] (entriesMatrix 2 entries)) :=
  operator_matrix [q] cs entries

/-- On two qubits it has four. -/
theorem operator_matrix_pair (a b : Qubit) (cs : List Qubit) (entries : Array (Amplitude ℝ)) :
    (KernelCall.matrix [a, b] cs entries).operator =
      controlled cs (matrixOperator [a, b] (entriesMatrix 4 entries)) :=
  operator_matrix [a, b] cs entries

/-! ### Products -/

section Products

variable {ts : List Qubit} {dim : ℕ} {M N : Matrix (Fin dim) (Fin dim) ℂ}

/-- The number that the targets spell, as a row. -/
def rowOf (hdim : dim = 2 ^ ts.length) (b : ℕ) : Fin dim := ⟨gather ts b, hdim ▸ gather_lt b ts⟩

theorem matrixOperator_apply (hdim : dim = 2 ^ ts.length) (ψ : ℕ → ℂ) (b : ℕ) :
    matrixOperator ts M ψ b = ∑ m, M (rowOf hdim b) m * ψ (replaced ts b m) := by
  have hrow : gather ts b < dim := hdim ▸ gather_lt b ts
  rw [matrixOperator, blockOperator_apply, if_pos hrow, Finset.sum_range]
  refine Finset.sum_congr rfl fun m _ => ?_
  rw [dif_pos ⟨hrow, m.isLt⟩]
  rfl

theorem replaced_replaced (b m m' : ℕ) : replaced ts (replaced ts b m) m' = replaced ts b m' := by
  rw [replaced, cleared_replaced, replaced]

theorem rowOf_replaced (hdim : dim = 2 ^ ts.length) (hts : ts.Nodup) (b : ℕ) (m : Fin dim) :
    rowOf hdim (replaced ts b m) = m :=
  Fin.ext (gather_replaced b hts (hdim ▸ m.isLt))

theorem replaced_rowOf (hdim : dim = 2 ^ ts.length) (hts : ts.Nodup) (b : ℕ) :
    replaced ts b (rowOf hdim b) = b := replaced_gather b hts

/-- **Products of matrices act as products of operators.** -/
theorem matrixOperator_mul (hdim : dim = 2 ^ ts.length) (hts : ts.Nodup) :
    matrixOperator ts (M * N) = matrixOperator ts M ∘ₗ matrixOperator ts N := by
  refine LinearMap.ext fun ψ => funext fun b => ?_
  rw [LinearMap.comp_apply, matrixOperator_apply hdim, matrixOperator_apply hdim]
  simp only [matrixOperator_apply hdim, rowOf_replaced hdim hts, replaced_replaced,
    Matrix.mul_apply, Finset.sum_mul, Finset.mul_sum, mul_assoc]
  exact Finset.sum_comm

theorem matrixOperator_one (hdim : dim = 2 ^ ts.length) (hts : ts.Nodup) :
    matrixOperator ts (1 : Matrix (Fin dim) (Fin dim) ℂ) = LinearMap.id := by
  refine LinearMap.ext fun ψ => funext fun b => ?_
  rw [matrixOperator_apply hdim, Finset.sum_eq_single (rowOf hdim b)]
  · rw [Matrix.one_apply_eq, one_mul, replaced_rowOf hdim hts]
    rfl
  · intro m _ hm
    rw [Matrix.one_apply_ne (Ne.symm hm), zero_mul]
  · intro h
    exact absurd (Finset.mem_univ _) h

theorem matrixOperator_smul (hdim : dim = 2 ^ ts.length) (a : ℂ) :
    matrixOperator ts (a • M) = a • matrixOperator ts M := by
  refine LinearMap.ext fun ψ => funext fun b => ?_
  rw [LinearMap.smul_apply, Pi.smul_apply, matrixOperator_apply hdim, matrixOperator_apply hdim,
    Finset.smul_sum]
  refine Finset.sum_congr rfl fun m _ => ?_
  rw [Matrix.smul_apply, smul_mul_assoc]

theorem matrixOperator_add (hdim : dim = 2 ^ ts.length) :
    matrixOperator ts (M + N) = matrixOperator ts M + matrixOperator ts N := by
  refine LinearMap.ext fun ψ => funext fun b => ?_
  rw [LinearMap.add_apply, Pi.add_apply, matrixOperator_apply hdim, matrixOperator_apply hdim,
    matrixOperator_apply hdim, ← Finset.sum_add_distrib]
  refine Finset.sum_congr rfl fun m _ => ?_
  rw [Matrix.add_apply, add_mul]

end Products

/-! ### One qubit -/

/-- The matrix of a Pauli operator. -/
noncomputable def Pauli.toMatrix : Pauli → Matrix (Fin 2) (Fin 2) ℂ
  | I => 1
  | X => !![0, 1; 1, 0]
  | Y => !![0, -Complex.I; Complex.I, 0]
  | Z => !![1, 0; 0, -1]

theorem entriesMatrix_two (a b c d : Amplitude ℝ) :
    entriesMatrix 2 #[a, b, c, d] =
      !![a.toComplex, b.toComplex; c.toComplex, d.toComplex] := by
  ext row col
  fin_cases row <;> fin_cases col <;> rfl

theorem entriesMatrix_pauli (p : Pauli) : entriesMatrix 2 p.matrix = p.toMatrix := by
  cases p <;> simp [Pauli.matrix, Pauli.toMatrix, entriesMatrix_two, Matrix.one_fin_two]

/-- A string of one operator is the matrix of that operator. -/
theorem stringOperator_singleton (q : Qubit) (p : Pauli) :
    stringOperator [(q, p)] = matrixOperator [q] p.toMatrix := by
  have hlen : [q].length = [p].length := rfl
  refine (blockOperator_tensor (List.nodup_singleton q) hlen fun row hrow col hcol => ?_).symm
  have hrow : row < 2 := hrow
  have hcol : col < 2 := hcol
  have htensor : tensorEntry [p] row col (1 : Amplitude ℝ) =
      1 * p.matrix.getD (row * 2 + col) 0 := by
    rw [tensorEntry, Nat.mod_eq_of_lt hrow, Nat.mod_eq_of_lt hcol]
    split <;> rfl
  rw [dif_pos ⟨hrow, hcol⟩, htensor, Amplitude.toComplex_mul, Amplitude.toComplex_one, one_mul,
    ← entriesMatrix_pauli]
  rfl

end GateCircuit
