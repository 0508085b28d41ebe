/-
# The entries of tensor products

The matrix of a list of Pauli operators is their tensor product, operator `j` on bit `j`: an entry is the
product over all operators of the entries that bit `j` of row and column choose. The first zero factor
settles an entry, which makes no difference. All products are of minus one, zero, one and the imaginary
unit, so nothing is rounded and the matrix is exact over doubles as well: as a matrix of complex numbers it
is Hermitian and its own inverse, and has one entry in every row that is not zero.

Key definitions: `onBits`, `entryProduct`, `IsTensor`.
Key theorems: `denotes_tensorEntry`, `stringMatrix_onBits`, `tensor_entries`.
-/
import Mathlib
import GateCircuit.Proofs.FactoryChecks
import GateCircuit.Proofs.HamiltonianMatrix
import GateCircuit.Proofs.UnitScalars

namespace GateCircuit

open Amplitude Denotes

/-! ### Strings on the low bits -/

/-- The string that has operator `j` of a list on qubit `j`. -/
def onBits (ps : List Pauli) : List (Qubit × Pauli) := (List.range ps.length).zip ps

section Bits

variable (ps : List Pauli)

theorem nodup_onBits : ((onBits ps).map Prod.fst).Nodup := nodup_fst_zip_range rfl

theorem onBits_lt : ∀ a ∈ onBits ps, a.1 < ps.length := fun _ ha =>
  List.mem_range.mp (List.of_mem_zip ha).1

theorem pauliAt_onBits (j : Fin ps.length) : pauliAt (onBits ps) j = ps[j] := by
  have hmem : ((j : ℕ), ps[j]) ∈ onBits ps := by
    have hlt : (j : ℕ) < (onBits ps).length := by simp [onBits]
    have hget : (onBits ps)[(j : ℕ)] = ((j : ℕ), ps[j]) := by simp [onBits]
    rw [← hget]
    exact List.getElem_mem hlt
  exact pauliAt_of_mem (nodup_onBits ps) hmem

/-- The product over all operators of the entries that bit `j` of row and column choose, as a number. -/
noncomputable def tensorValue (row col : ℕ) : ℂ :=
  ∏ j : Fin ps.length, ps[j].toMatrix (bitIndex (row.testBit j)) (bitIndex (col.testBit j))

theorem stringMatrix_onBits (row col : Fin (2 ^ ps.length)) :
    stringMatrix ps.length (onBits ps) row col = tensorValue ps row col := by
  rw [stringMatrix, Matrix.of_apply, tensorValue]
  exact Finset.prod_congr rfl fun j _ => by rw [pauliAt_onBits]

theorem tensorValue_cons (p : Pauli) (row col : ℕ) : tensorValue (p :: ps) row col =
    p.toMatrix (bitIndex (row.testBit 0)) (bitIndex (col.testBit 0)) *
      tensorValue ps (row / 2) (col / 2) := by
  change ∏ j : Fin (ps.length + 1), (p :: ps)[j].toMatrix _ _ = _
  rw [Fin.prod_univ_succ]
  simp only [Fin.getElem_fin, Fin.val_zero, Fin.val_succ, List.getElem_cons_zero,
    List.getElem_cons_succ, Nat.testBit_succ]
  rfl

end Bits

/-- Only in the column with the flips undone an entry is not zero. -/
theorem tensorValue_ne_zero_iff {ps : List Pauli} {row col : ℕ} (hrow : row < 2 ^ ps.length)
    (hcol : col < 2 ^ ps.length) :
    tensorValue ps row col ≠ 0 ↔ col = row ^^^ flipMask (onBits ps) := by
  have hfactor : ∀ (p : Pauli) (bit : Bool), p.factor bit ≠ 0 := fun p bit =>
    left_ne_zero_of_mul (factor_mul_conj p bit ▸ one_ne_zero)
  rw [eq_comm (a := col), ← forall_flips_iff (nodup_onBits ps) (onBits_lt ps) hrow hcol, tensorValue,
    Finset.prod_ne_zero_iff]
  refine ⟨fun h j => ?_, fun h j _ => ?_⟩
  · have hj := h j (Finset.mem_univ j)
    rw [toMatrix_bitIndex] at hj
    rw [pauliAt_onBits]
    exact of_not_not fun hno => hj (if_neg hno)
  · rw [toMatrix_bitIndex, if_pos (pauliAt_onBits ps j ▸ h j)]
    exact hfactor _ _

/-- Of the products of a row with a column at most one is not zero. -/
theorem pairwise_tensorValue {ps : List Pauli} {row : ℕ} (hrow : row < 2 ^ ps.length) (col : ℕ) :
    ((List.range (2 ^ ps.length)).map fun i => tensorValue ps row i * tensorValue ps i col).Pairwise
      fun u v => u = 0 ∨ v = 0 := by
  have hcolumn : ∀ {i}, i ∈ List.range (2 ^ ps.length) →
      tensorValue ps row i * tensorValue ps i col ≠ 0 → i = row ^^^ flipMask (onBits ps) :=
    fun hi h => (tensorValue_ne_zero_iff hrow (List.mem_range.mp hi)).mp (left_ne_zero_of_mul h)
  rw [List.pairwise_map]
  refine List.nodup_range.imp_of_mem fun {i j} hi hj hij => ?_
  by_contra hno
  rw [not_or] at hno
  exact hij ((hcolumn hi hno.1).trans (hcolumn hj hno.2).symm)

/-- The products of a row with a column add up to an entry of the identity. -/
theorem sum_tensorValue {ps : List Pauli} {row col : ℕ} (hrow : row < 2 ^ ps.length)
    (hcol : col < 2 ^ ps.length) :
    ((List.range (2 ^ ps.length)).map fun i => tensorValue ps row i * tensorValue ps i col).sum =
      if row = col then 1 else 0 := by
  have hself := congrFun (congrFun (stringMatrix_self (nodup_onBits ps) (onBits_lt ps)) ⟨row, hrow⟩)
    ⟨col, hcol⟩
  rw [Matrix.mul_apply, Matrix.one_apply] at hself
  simp only [Fin.mk.injEq, stringMatrix_onBits] at hself
  rw [← hself]
  exact Finset.sum_range _

/-- The product of entries is Hermitian. -/
theorem tensorValue_conj {ps : List Pauli} {row col : ℕ} (hrow : row < 2 ^ ps.length)
    (hcol : col < 2 ^ ps.length) : tensorValue ps col row = starRingEnd ℂ (tensorValue ps row col) := by
  have hself := (stringMatrix_isHermitian ps.length (onBits ps)).apply ⟨col, hcol⟩ ⟨row, hrow⟩
  rw [stringMatrix_onBits, stringMatrix_onBits] at hself
  exact hself.symm

/-! ### Entries as scalars -/

section Entries

variable {R : Type} [Scalar R]

/-- The product over all operators of the entries that bit `j` of row and column choose, multiplied from
the left. -/
def entryProduct (ps : List Pauli) (row col : ℕ) : Amplitude R :=
  ((List.finRange ps.length).map fun j =>
    ps[j].matrix.getD (2 * (row.testBit j).toNat + (col.testBit j).toNat) 0).foldl (· * ·) 1

/-- **A matrix is the tensor product** of Pauli operators: operator `j` acts on bit `j` of rows and
columns. -/
structure IsTensor (ps : List Pauli) (entries : Array (Amplitude R)) : Prop where
  size : entries.size = 4 ^ ps.length
  product : ∀ row < 2 ^ ps.length, ∀ col < 2 ^ ps.length,
    (entries.getD (row * 2 ^ ps.length + col) 0 == entryProduct ps row col) = true
  /-- in every row one entry is not zero, where the flipped bits are the other way round -/
  support : ∀ row < 2 ^ ps.length, ∀ col < 2 ^ ps.length,
    (entries.getD (row * 2 ^ ps.length + col) 0).isZero = false ↔
      col = row ^^^ flipMask (onBits ps)
  hermitian : ∀ row < 2 ^ ps.length, ∀ col < 2 ^ ps.length,
    (entries.getD (col * 2 ^ ps.length + row) 0 ==
      (entries.getD (row * 2 ^ ps.length + col) 0).conj) = true
  /-- its square is the identity -/
  involution : ∀ row < 2 ^ ps.length, ∀ col < 2 ^ ps.length,
    (Amplitude.sum ((List.range (2 ^ ps.length)).map fun i =>
        entries.getD (row * 2 ^ ps.length + i) 0 * entries.getD (i * 2 ^ ps.length + col) 0) ==
      if row = col then 1 else 0) = true

variable [ExactUnits R]

/-- The entry of an operator in a row and a column of its qubit. -/
theorem denotes_pauliMatrix (p : Pauli) (row col : Bool) :
    Denotes (p.matrix.getD (2 * row.toNat + col.toNat) 0 : Amplitude R)
      (p.toMatrix (bitIndex row) (bitIndex col)) := by
  have hone : Denotes (1 : Amplitude R) 1 := one
  have hI : Denotes (Amplitude.I : Amplitude R) Complex.I := imaginaryUnit
  have hzero : Denotes (0 : Amplitude R) 0 := zero
  cases p <;> cases row <;> cases col <;>
    simp only [Pauli.toMatrix, bitIndex, Matrix.one_apply, Matrix.of_apply, Matrix.cons_val'] <;>
    first | exact hone | exact hzero | exact hI | exact hI.neg | exact hone.neg

/-- **An entry stands for the product of its factors.** After a zero factor, which ends the product, the
other factors no longer matter. -/
theorem denotes_tensorEntry : ∀ (ps : List Pauli) (row col : ℕ) {entry : Amplitude R} {z : ℂ},
    Denotes entry z → Denotes (tensorEntry ps row col entry) (z * tensorValue ps row col)
  | [], row, col, entry, z, h => by
    have hnone : tensorValue [] row col = 1 := rfl
    rwa [tensorEntry, hnone, mul_one]
  | p :: ps, row, col, entry, z, h => by
    have hindex : row % 2 * 2 + col % 2 = 2 * (row.testBit 0).toNat + (col.testBit 0).toNat := by
      simp only [Nat.toNat_testBit, pow_zero, Nat.div_one, Nat.mul_comm]
    have hproduct := h.mul (denotes_pauliMatrix p (row.testBit 0) (col.testBit 0))
    rw [tensorEntry, hindex, tensorValue_cons, ← mul_assoc]
    split
    · rename_i hstop
      rw [hproduct.isZero_iff] at hstop
      rw [hstop] at hproduct
      rw [hstop, zero_mul]
      exact hproduct
    · exact denotes_tensorEntry ps (row / 2) (col / 2) hproduct

/-- So does the product that does not stop. -/
theorem denotes_entryProduct (ps : List Pauli) (row col : ℕ) :
    Denotes (entryProduct ps row col : Amplitude R) (tensorValue ps row col) := by
  rw [entryProduct, tensorValue, Fin.prod_univ_def, ← one_mul (List.prod _)]
  refine denotes_foldl_mul ?_ one
  rw [List.forall₂_map_left_iff, List.forall₂_map_right_iff, List.forall₂_same]
  exact fun j _ => denotes_pauliMatrix _ _ _

end Entries

/-! ### Matrices -/

section Matrices

variable {R : Type} [Scalar R] [ExactUnits R] {ps : List Pauli} {entries : Array (Amplitude R)}

/-- A matrix of so many entries whose entries are the products is the tensor product. -/
theorem isTensor_of_denotes (hsize : entries.size = 4 ^ ps.length)
    (hentry : ∀ row < 2 ^ ps.length, ∀ col < 2 ^ ps.length,
      Denotes (entries.getD (row * 2 ^ ps.length + col) 0) (tensorValue ps row col)) :
    IsTensor ps entries := by
  refine ⟨hsize, fun row hrow col hcol => ?_, fun row hrow col hcol => ?_,
    fun row hrow col hcol => ?_, fun row hrow col hcol => ?_⟩
  · exact (beq_iff (hentry row hrow col hcol) (denotes_entryProduct ps row col)).mpr rfl
  · rw [← tensorValue_ne_zero_iff hrow hcol, ← Bool.not_eq_true,
      (hentry row hrow col hcol).isZero_iff]
  · exact (beq_iff (hentry col hcol row hrow) (hentry row hrow col hcol).conj).mpr
      (tensorValue_conj hrow hcol)
  · -- the square, as a sum over the columns of a row
    have hproducts : List.Forall₂ Denotes
        ((List.range (2 ^ ps.length)).map fun i =>
          entries.getD (row * 2 ^ ps.length + i) 0 * entries.getD (i * 2 ^ ps.length + col) 0)
        ((List.range (2 ^ ps.length)).map fun i => tensorValue ps row i * tensorValue ps i col) := by
      rw [List.forall₂_map_left_iff, List.forall₂_map_right_iff, List.forall₂_same]
      intro i hi
      have hi := List.mem_range.mp hi
      exact (hentry row hrow i hi).mul (hentry i hi col hcol)
    have hidentity : Denotes (if row = col then 1 else 0 : Amplitude R) (if row = col then 1 else 0) := by
      split
      · exact one
      · exact zero
    exact (beq_iff (denotes_sum hproducts (pairwise_tensorValue hrow col)) hidentity).mpr
      (sum_tensorValue hrow hcol)

/-- **Pauli strings as matrices.** A list of at most so many Pauli operators has a matrix, their tensor
product in the order of bits. A longer one has none, and the error names its length, as far as a 32-bit
word counts. -/
theorem tensor_entries (R : Type) [Scalar R] [ExactUnits R] (ps : List Pauli) :
    (ps.length ≤ maxMatrixQubits → ∃ entries : Array (Amplitude R),
      tensor ps = .ok entries ∧ IsTensor ps entries) ∧
    (maxMatrixQubits < ps.length →
      tensor (R := R) ps = .error (.tooManyQubits (min ps.length maxCount) maxMatrixQubits)) := by
  refine ⟨fun hmax => ?_, (GateKind.tensor_outcome ps).1⟩
  obtain ⟨entries, hok, hsize, hentry⟩ := tensor_eq_ok (R := R) hmax
  refine ⟨entries, hok, isTensor_of_denotes ?_ fun row hrow col hcol => ?_⟩
  · rw [hsize, ← mul_pow]
    rfl
  · rw [hentry row hrow col hcol, ← one_mul (tensorValue ps row col)]
    exact denotes_tensorEntry ps row col one

end Matrices

/-- Over doubles, two operators that flip their bits. Eleven operators have no matrix. -/
theorem tensor_entries_flips :
    [Pauli.Y, .X].length ≤ maxMatrixQubits ∧
      (∃ entries : Array (Amplitude Float), tensor [.Y, .X] = .ok entries ∧
        entries.size = 16 ∧ (entries.getD (1 * 4 + 2) 0).isZero = false) ∧
      maxMatrixQubits < (List.replicate 11 Pauli.Z).length ∧
      tensor (R := Float) (List.replicate 11 .Z) = .error (.tooManyQubits 11 10) := by
  refine ⟨by decide, ?_, by decide, (tensor_entries Float (List.replicate 11 .Z)).2 (by decide)⟩
  obtain ⟨entries, hok, hentries⟩ := (tensor_entries Float [.Y, .X]).1 (by decide)
  exact ⟨entries, hok, hentries.size, (hentries.support 1 (by decide) 2 (by decide)).mpr (by decide)⟩

end GateCircuit
