/-
# Hamiltonians as matrices

An operator that is local to a register is a matrix with one row for every basis state, and products and
combinations of operators are those of their matrices. A Pauli string is the tensor product of the matrices
of its operators, with the identity on the qubits that it does not list: an entry is the product over all
qubits of the entries that the bits of row and column choose. A Hamiltonian is the sum of the strings of
its terms, each times its real weight.

Key definitions: `localMatrix`, `pauliAt`, `stringMatrix`, `Hamiltonian.toMatrix`, `StateVector.vector`.
Key theorems: `localMatrix_comp`, `localMatrix_mulVec`, `localMatrix_stringOperator`,
`stringMatrix_isHermitian`, `stringMatrix_self`, `localMatrix_turn`.
-/
import Mathlib
import GateCircuit.Proofs.CommutingEvolution

namespace GateCircuit

open scoped Matrix

/-! ### Operators as matrices -/

/-- The matrix of an operator on `n` qubits. Its columns are what becomes of the basis states. -/
noncomputable def localMatrix (n : ℕ) (A : Operator) : Matrix (Fin (2 ^ n)) (Fin (2 ^ n)) ℂ :=
  Matrix.of fun row col => A (Pi.single (col : ℕ) 1) row

section Local

variable {n : ℕ} {A B : Operator}

/-- A local operator multiplies the amplitudes of the register by its matrix. -/
theorem localMatrix_mulVec (hA : Local n A) (ψ : ℕ → ℂ) :
    (localMatrix n A *ᵥ fun col : Fin (2 ^ n) => ψ col) = fun row : Fin (2 ^ n) => A ψ row := by
  funext row
  have hsum := hA.apply_eq_sum ψ 0 row.isLt
  simp only [Nat.mul_zero, Nat.zero_add] at hsum
  rw [hsum]
  rfl

theorem localMatrix_one (n : ℕ) : localMatrix n 1 = 1 := by
  ext row col
  rw [localMatrix, Matrix.of_apply, Module.End.one_apply, Pi.single_apply, Matrix.one_apply]
  simp only [Fin.ext_iff]

theorem localMatrix_comp (hA : Local n A) (B : Operator) :
    localMatrix n (A * B) = localMatrix n A * localMatrix n B := by
  ext row col
  exact (congrFun (localMatrix_mulVec hA (B (Pi.single (col : ℕ) 1))) row).symm

theorem localMatrix_pow (hA : Local n A) (r : ℕ) : localMatrix n (A ^ r) = localMatrix n A ^ r := by
  induction r with
  | zero => rw [pow_zero, pow_zero, localMatrix_one]
  | succ r ih => rw [pow_succ', pow_succ', localMatrix_comp hA, ih]

end Local

/-! ### Tensor products of Pauli operators -/

/-- The operator that a string has on a qubit: the identity where it lists none. -/
def pauliAt : List (Qubit × Pauli) → Qubit → Pauli
  | [], _ => .I
  | (q, p) :: rest, i => if i = q then p else pauliAt rest i

/-- The row or the column that the state of a qubit chooses. -/
def bitIndex (bit : Bool) : Fin 2 := if bit then 1 else 0

/-- The tensor product of the operators of a string on a register of `n` qubits, qubit `q` on bit `q`. -/
noncomputable def stringMatrix (n : ℕ) (string : List (Qubit × Pauli)) :
    Matrix (Fin (2 ^ n)) (Fin (2 ^ n)) ℂ :=
  Matrix.of fun row col => ∏ q : Fin n, (pauliAt string q).toMatrix
    (bitIndex ((row : ℕ).testBit q)) (bitIndex ((col : ℕ).testBit q))

theorem toMatrix_bitIndex (p : Pauli) (row col : Bool) :
    p.toMatrix (bitIndex row) (bitIndex col) =
      if col = (row ^^ p.flips) then p.factor col else 0 := by
  cases p <;> cases row <;> cases col <;>
    simp [Pauli.toMatrix, bitIndex, Pauli.flips, Pauli.factor]

theorem pauliAt_of_notMem {i : Qubit} : ∀ {string : List (Qubit × Pauli)},
    i ∉ string.map Prod.fst → pauliAt string i = .I
  | [], _ => rfl
  | (q, p) :: rest, h => by
    rw [List.map_cons, List.mem_cons, not_or] at h
    rw [pauliAt, if_neg h.1, pauliAt_of_notMem h.2]

theorem pauliAt_of_mem {a : Qubit × Pauli} : ∀ {string : List (Qubit × Pauli)},
    (string.map Prod.fst).Nodup → a ∈ string → pauliAt string a.1 = a.2
  | (q, p) :: rest, hnd, ha => by
    obtain ⟨hq, hrest⟩ := List.nodup_cons.mp hnd
    rw [pauliAt]
    rcases List.mem_cons.mp ha with rfl | ha
    · rw [if_pos rfl]
    · have hne : a.1 ≠ q := fun h => hq (List.mem_map.mpr ⟨a, ha, h⟩)
      rw [if_neg hne, pauliAt_of_mem hrest ha]

section Strings

variable {n : ℕ} {string : List (Qubit × Pauli)}

/-- The operator on a qubit tells whether a string flips it. -/
theorem flips_pauliAt (hnd : (string.map Prod.fst).Nodup) (i : Qubit) :
    (pauliAt string i).flips = (flipMask string).testBit i := by
  by_cases hi : i ∈ string.map Prod.fst
  · obtain ⟨a, ha, rfl⟩ := List.mem_map.mp hi
    rw [testBit_flipMask_of_mem hnd a ha, pauliAt_of_mem hnd ha]
  · have hother : ∀ a ∈ string, a.1 ≠ i := fun a ha h => hi (h ▸ List.mem_map_of_mem ha)
    rw [pauliAt_of_notMem hi, testBit_flipMask_of_notMem hother]
    rfl

/-- The factors of all qubits of the register multiply to the factor of the string. -/
theorem prod_factor_pauliAt (b : ℕ) : ∀ {string : List (Qubit × Pauli)},
    (string.map Prod.fst).Nodup → (∀ a ∈ string, a.1 < n) →
    ∏ q : Fin n, (pauliAt string q).factor (b.testBit q) = stringFactor string b
  | [], _, _ => Finset.prod_eq_one fun _ _ => rfl
  | (q, p) :: rest, hnd, hin => by
    obtain ⟨hq, hrest⟩ := List.nodup_cons.mp hnd
    obtain ⟨hlt, hin⟩ := List.forall_mem_cons.mp hin
    -- the rest of the string has the identity on the first qubit
    have hsplit : ∀ i : Fin n, (pauliAt ((q, p) :: rest) i).factor (b.testBit i) =
        (if i = ⟨q, hlt⟩ then p.factor (b.testBit q) else 1) *
          (pauliAt rest i).factor (b.testBit i) := by
      intro i
      rw [pauliAt]
      by_cases hi : i = ⟨q, hlt⟩
      · subst hi
        rw [if_pos rfl, if_pos rfl, pauliAt_of_notMem hq, Pauli.factor, mul_one]
      · have hne : (i : ℕ) ≠ q := fun h => hi (Fin.ext h)
        rw [if_neg hne, if_neg hi, one_mul]
    simp only [hsplit, Finset.prod_mul_distrib, Finset.prod_ite_eq', Finset.mem_univ, if_true,
      prod_factor_pauliAt b hrest hin, stringFactor]

/-- Only in the column with the flips undone no factor of an entry is zero. -/
theorem forall_flips_iff (hnd : (string.map Prod.fst).Nodup) (hin : ∀ a ∈ string, a.1 < n)
    {row col : ℕ} (hrow : row < 2 ^ n) (hcol : col < 2 ^ n) :
    (∀ q : Fin n, col.testBit q = (row.testBit q ^^ (pauliAt string q).flips)) ↔
      row ^^^ flipMask string = col := by
  simp only [flips_pauliAt hnd, ← Nat.testBit_xor]
  constructor
  · intro h
    refine Nat.eq_of_testBit_eq fun i => ?_
    by_cases hi : i < n
    · exact (h ⟨i, hi⟩).symm
    · have hle : n ≤ i := Nat.le_of_not_lt hi
      rw [testBit_of_lt_two_pow hcol hle,
        testBit_of_lt_two_pow (Nat.xor_lt_two_pow hrow (flipMask_lt hin)) hle]
  · rintro rfl q
    rfl

/-- **The operator of a string is its tensor product.** -/
theorem localMatrix_stringOperator (hnd : (string.map Prod.fst).Nodup)
    (hin : ∀ a ∈ string, a.1 < n) : localMatrix n (stringOperator string) = stringMatrix n string := by
  ext row col
  rw [localMatrix, stringMatrix, Matrix.of_apply, Matrix.of_apply, stringOperator_apply,
    Pi.single_apply]
  simp only [toMatrix_bitIndex, Finset.prod_ite_zero, Finset.mem_univ, true_imp_iff,
    forall_flips_iff hnd hin row.isLt col.isLt, prod_factor_pauliAt _ hnd hin]
  split
  · rename_i hcol
    rw [hcol, mul_one]
  · rw [mul_zero]

/-- A string is its own adjoint, because each of its operators is. -/
theorem stringMatrix_isHermitian (n : ℕ) (string : List (Qubit × Pauli)) :
    (stringMatrix n string).IsHermitian := by
  have hentry : ∀ (p : Pauli) (row col : Fin 2), star (p.toMatrix col row) = p.toMatrix row col := by
    intro p row col
    cases p <;> fin_cases row <;> fin_cases col <;> simp [Pauli.toMatrix]
  refine Matrix.IsHermitian.ext fun row col => ?_
  rw [stringMatrix, Matrix.of_apply, Matrix.of_apply, star_prod]
  exact Finset.prod_congr rfl fun q _ => hentry _ _ _

theorem stringMatrix_self (hnd : (string.map Prod.fst).Nodup) (hin : ∀ a ∈ string, a.1 < n) :
    stringMatrix n string * stringMatrix n string = 1 := by
  rw [← localMatrix_stringOperator hnd hin, ← localMatrix_comp (local_stringOperator hin),
    ← localMatrix_one]
  exact congrArg (localMatrix n) (stringOperator_self hnd)

/-- The matrix of a rotation by twice the angle `x`. -/
theorem localMatrix_turn (hnd : (string.map Prod.fst).Nodup) (hin : ∀ a ∈ string, a.1 < n) (x : ℝ) :
    localMatrix n (turn string x) =
      (Real.cos x : ℂ) • (1 : Matrix (Fin (2 ^ n)) (Fin (2 ^ n)) ℂ) +
        (-(Real.sin x * Complex.I)) • stringMatrix n string := by
  rw [← localMatrix_stringOperator hnd hin, ← localMatrix_one]
  rfl

end Strings

/-! ### Hamiltonians -/

/-- The Pauli string of a term on a register, without its weight. -/
noncomputable def PauliTerm.toMatrix (t : PauliTerm ℝ) (n : ℕ) :
    Matrix (Fin (2 ^ n)) (Fin (2 ^ n)) ℂ :=
  stringMatrix n (t.qubits.zip t.paulis)

/-- The matrix of a Hamiltonian on a register: its strings, each times its real weight. -/
noncomputable def Hamiltonian.toMatrix (h : Hamiltonian ℝ) (n : ℕ) :
    Matrix (Fin (2 ^ n)) (Fin (2 ^ n)) ℂ :=
  (h.terms.map fun t => (t.coef.re : ℂ) • t.toMatrix n).sum

/-- The amplitudes of a register of `n` qubits. -/
noncomputable def StateVector.vector (s : StateVector ℝ) (n : ℕ) : EuclideanSpace ℂ (Fin (2 ^ n)) :=
  WithLp.toLp 2 fun b => s.amp b

end GateCircuit
