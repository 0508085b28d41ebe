/-
# Inner products of amplitudes

The inner product of two registers is a sum over basis indices. An operator with an adjoint that undoes
it preserves inner products; so does an operator where its controls are set, if it preserves the inner
products over those indices alone. Strings are their own adjoints; the adjoint of a matrix on targets is
the conjugate transpose, because what a row gives to a column comes back from there.

Key definitions: `overlap`, `weight`, `Adjoint`, `Preserves`, `Shrinks`, `controlledIndices`.
Key theorems: `Preserves.of_adjoint`, `preserves_controlled`, `shrinks_controlled`, `adjoint_stringOperator`,
`preserves_mixOperator`, `adjoint_matrixOperator`, `preserves_matrixOperator`,
`StateVector.inner?_eq`, `StateVector.normSq_eq`.
-/
import Mathlib
import GateCircuit.Proofs.MatrixOperator
import GateCircuit.Proofs.PauliAlgebra

namespace GateCircuit

open scoped ComplexConjugate Matrix

/-- The inner product over some basis indices, conjugate in the first place. -/
noncomputable def overlap (S : Finset ℕ) (φ ψ : ℕ → ℂ) : ℂ := ∑ b ∈ S, conj (φ b) * ψ b

/-- The sum of the squared absolute values over some basis indices. -/
noncomputable def weight (S : Finset ℕ) (ψ : ℕ → ℂ) : ℝ := ∑ b ∈ S, Complex.normSq (ψ b)

theorem overlap_self (S : Finset ℕ) (ψ : ℕ → ℂ) : overlap S ψ ψ = weight S ψ := by
  rw [overlap, weight, Complex.ofReal_sum]
  exact Finset.sum_congr rfl fun b _ => (Complex.normSq_eq_conj_mul_self).symm

theorem overlap_add_right (S : Finset ℕ) (φ ψ χ : ℕ → ℂ) :
    overlap S φ (ψ + χ) = overlap S φ ψ + overlap S φ χ := by
  simp only [overlap, Pi.add_apply, mul_add, Finset.sum_add_distrib]

theorem overlap_add_left (S : Finset ℕ) (φ ψ χ : ℕ → ℂ) :
    overlap S (φ + ψ) χ = overlap S φ χ + overlap S ψ χ := by
  simp only [overlap, Pi.add_apply, map_add, add_mul, Finset.sum_add_distrib]

theorem overlap_smul_right (S : Finset ℕ) (a : ℂ) (φ ψ : ℕ → ℂ) :
    overlap S φ (a • ψ) = a * overlap S φ ψ := by
  simp only [overlap, Pi.smul_apply, smul_eq_mul, Finset.mul_sum, mul_left_comm]

theorem overlap_smul_left (S : Finset ℕ) (a : ℂ) (φ ψ : ℕ → ℂ) :
    overlap S (a • φ) ψ = conj a * overlap S φ ψ := by
  simp only [overlap, Pi.smul_apply, smul_eq_mul, map_mul, Finset.mul_sum, mul_assoc]

/-! ### Operators and inner products -/

section Operators

variable {S : Finset ℕ} {A B : Operator}

/-- What `A` does in the first place of an inner product, `B` does in the second. -/
def Adjoint (S : Finset ℕ) (A B : Operator) : Prop :=
  ∀ φ ψ, overlap S (A φ) ψ = overlap S φ (B ψ)

/-- The operator leaves inner products as they are. -/
def Preserves (S : Finset ℕ) (A : Operator) : Prop :=
  ∀ φ ψ, overlap S (A φ) (A ψ) = overlap S φ ψ

/-- The operator makes no norm larger. -/
def Shrinks (S : Finset ℕ) (A : Operator) : Prop := ∀ ψ, weight S (A ψ) ≤ weight S ψ

theorem Adjoint.add {A' B' : Operator} (h : Adjoint S A B) (h' : Adjoint S A' B') :
    Adjoint S (A + A') (B + B') := by
  intro φ ψ
  rw [LinearMap.add_apply, LinearMap.add_apply, overlap_add_left, overlap_add_right, h, h']

theorem Adjoint.smul (a : ℂ) (h : Adjoint S A B) : Adjoint S (a • A) (conj a • B) := by
  intro φ ψ
  rw [LinearMap.smul_apply, LinearMap.smul_apply, overlap_smul_left, overlap_smul_right, h]

theorem Adjoint.id : Adjoint S LinearMap.id LinearMap.id := fun _ _ => rfl

/-- An operator that its adjoint undoes preserves inner products. -/
theorem Preserves.of_adjoint (h : Adjoint S A B) (hBA : B ∘ₗ A = LinearMap.id) : Preserves S A := by
  intro φ ψ
  rw [h, ← LinearMap.comp_apply, hBA, LinearMap.id_apply]

theorem Preserves.id : Preserves S LinearMap.id := fun _ _ => rfl

theorem Preserves.comp (hA : Preserves S A) (hB : Preserves S B) : Preserves S (A ∘ₗ B) := by
  intro φ ψ
  rw [LinearMap.comp_apply, LinearMap.comp_apply, hA, hB]

theorem Preserves.weight (hA : Preserves S A) (ψ : ℕ → ℂ) : weight S (A ψ) = weight S ψ := by
  have := hA ψ ψ
  rwa [overlap_self, overlap_self, Complex.ofReal_inj] at this

theorem Preserves.shrinks (hA : Preserves S A) : Shrinks S A := fun ψ => (hA.weight ψ).le

/-- An operator that preserves the inner products of a register does not vanish. -/
theorem Preserves.exists_ne_zero {n : ℕ} (hA : Preserves (Finset.range (2 ^ n)) A) :
    ∃ ψ b, A ψ b ≠ 0 := by
  by_contra! hall
  have hbasis : GateCircuit.weight (Finset.range (2 ^ n)) (Pi.single 0 1) = 1 := by
    rw [GateCircuit.weight, Finset.sum_eq_single 0]
    · simp
    · intro b _ hb
      simp [hb]
    · intro h
      simp at h
  have hvanishes := hA.weight (Pi.single 0 1)
  rw [hbasis, GateCircuit.weight] at hvanishes
  simp [hall] at hvanishes

theorem Shrinks.id : Shrinks S LinearMap.id := fun _ => le_rfl

theorem Shrinks.comp (hA : Shrinks S A) (hB : Shrinks S B) : Shrinks S (A ∘ₗ B) := fun ψ =>
  (hA (B ψ)).trans (hB ψ)

section Controls

variable {cs : List Qubit}

/-- An operator under control does its work where the controls are set. -/
theorem overlap_controlled (S : Finset ℕ) (cs : List Qubit) (A : Operator) (φ ψ : ℕ → ℂ) :
    overlap S (controlled cs A φ) (controlled cs A ψ) =
      overlap (S.filter (AllSet cs)) (A φ) (A ψ) +
        overlap (S.filter fun b => ¬ AllSet cs b) φ ψ := by
  simp only [overlap]
  rw [← Finset.sum_filter_add_sum_filter_not S (AllSet cs)]
  congr 1
  · refine Finset.sum_congr rfl fun b hb => ?_
    have hset : AllSet cs b := (Finset.mem_filter.mp hb).2
    rw [controlled_apply, controlled_apply, if_pos hset, if_pos hset]
  · refine Finset.sum_congr rfl fun b hb => ?_
    have hunset : ¬ AllSet cs b := (Finset.mem_filter.mp hb).2
    rw [controlled_apply, controlled_apply, if_neg hunset, if_neg hunset]

theorem overlap_filter (S : Finset ℕ) (cs : List Qubit) (φ ψ : ℕ → ℂ) :
    overlap (S.filter (AllSet cs)) φ ψ + overlap (S.filter fun b => ¬ AllSet cs b) φ ψ =
      overlap S φ ψ :=
  Finset.sum_filter_add_sum_filter_not S (AllSet cs) _

/-- A controlled operator preserves inner products if it does where the controls are set. -/
theorem preserves_controlled (h : Preserves (S.filter (AllSet cs)) A) :
    Preserves S (controlled cs A) := by
  intro φ ψ
  rw [overlap_controlled, h φ ψ, overlap_filter]

/-- A controlled operator makes no norm larger if it does not where the controls are set. -/
theorem shrinks_controlled (h : Shrinks (S.filter (AllSet cs)) A) : Shrinks S (controlled cs A) := by
  intro ψ
  have hsplit := overlap_controlled S cs A ψ ψ
  have hwhole := overlap_filter S cs ψ ψ
  simp only [overlap_self, ← Complex.ofReal_add, Complex.ofReal_inj] at hsplit hwhole
  have := h ψ
  linarith

end Controls

end Operators

/-! ### Strings -/

section Strings

variable {S : Finset ℕ} {string : List (Qubit × Pauli)}

/-- **A string is its own adjoint** over indices that its flips do not leave. -/
theorem adjoint_stringOperator (hnd : (string.map Prod.fst).Nodup)
    (hS : ∀ b ∈ S, b ^^^ flipMask string ∈ S) :
    Adjoint S (stringOperator string) (stringOperator string) := by
  intro φ ψ
  rw [overlap, overlap]
  refine Finset.sum_nbij' (· ^^^ flipMask string) (· ^^^ flipMask string) hS hS
    (fun b _ => Nat.xor_xor_cancel_right b _) (fun b _ => Nat.xor_xor_cancel_right b _)
    fun b _ => ?_
  rw [stringOperator_apply, stringOperator_apply, Nat.xor_xor_cancel_right,
    stringFactor_flipped hnd, map_mul, Complex.conj_conj]
  have hback := stringFactor_flipped hnd (b ^^^ flipMask string)
  rw [Nat.xor_xor_cancel_right, stringFactor_flipped hnd, Complex.conj_conj] at hback
  ring

theorem mixOperator_comp (hnd : (string.map Prod.fst).Nodup) (a b a' b' : ℂ) :
    mixOperator string a b ∘ₗ mixOperator string a' b' =
      mixOperator string (a * a' + b * b') (a * b' + b * a') := by
  have hself := stringOperator_self hnd
  simp only [mixOperator, LinearMap.comp_add, LinearMap.add_comp, LinearMap.smul_comp,
    LinearMap.comp_smul, LinearMap.id_comp, LinearMap.comp_id, hself]
  module

/-- A combination of the identity and a string preserves inner products if its factors are, as vectors
of the plane, orthogonal and together of length one. -/
theorem preserves_mixOperator (hnd : (string.map Prod.fst).Nodup)
    (hS : ∀ b ∈ S, b ^^^ flipMask string ∈ S) {stay flip : ℂ}
    (hone : conj stay * stay + conj flip * flip = 1)
    (hzero : conj stay * flip + conj flip * stay = 0) :
    Preserves S (mixOperator string stay flip) := by
  have hadjoint : Adjoint S (mixOperator string stay flip)
      (mixOperator string (conj stay) (conj flip)) :=
    (Adjoint.id.smul stay).add ((adjoint_stringOperator hnd hS).smul flip)
  refine Preserves.of_adjoint hadjoint ?_
  rw [mixOperator_comp hnd, hone, hzero, mixOperator, one_smul, zero_smul, add_zero]

end Strings

/-! ### Matrices -/

section Matrices

variable {S : Finset ℕ} {ts : List Qubit} {dim : ℕ} {M : Matrix (Fin dim) (Fin dim) ℂ}

/-- Index and row change places. -/
theorem sum_sum_replaced (hdim : dim = 2 ^ ts.length) (hts : ts.Nodup)
    (hS : ∀ b ∈ S, ∀ m, replaced ts b m ∈ S) (f : ℕ → Fin dim → ℂ) :
    ∑ b ∈ S, ∑ m, f b m = ∑ b ∈ S, ∑ m : Fin dim, f (replaced ts b m) (rowOf hdim b) := by
  rw [← Finset.sum_product', ← Finset.sum_product']
  have hmaps : ∀ a ∈ S ×ˢ (Finset.univ : Finset (Fin dim)),
      (replaced ts a.1 a.2, rowOf hdim a.1) ∈ S ×ˢ (Finset.univ : Finset (Fin dim)) := fun a ha =>
    Finset.mem_product.mpr ⟨hS _ (Finset.mem_product.mp ha).1 _, Finset.mem_univ _⟩
  have hback : ∀ a ∈ S ×ˢ (Finset.univ : Finset (Fin dim)),
      (replaced ts (replaced ts a.1 a.2) (rowOf hdim a.1), rowOf hdim (replaced ts a.1 a.2)) = a :=
    fun a _ => by
      rw [replaced_replaced, replaced_rowOf hdim hts, rowOf_replaced hdim hts]
  refine Finset.sum_nbij' (fun a => (replaced ts a.1 a.2, rowOf hdim a.1))
    (fun a => (replaced ts a.1 a.2, rowOf hdim a.1)) hmaps hmaps hback hback fun a _ => ?_
  simp only [replaced_replaced, replaced_rowOf hdim hts, rowOf_replaced hdim hts]

/-- **The adjoint of a matrix** on targets is its conjugate transpose. -/
theorem adjoint_matrixOperator (hdim : dim = 2 ^ ts.length) (hts : ts.Nodup)
    (hS : ∀ b ∈ S, ∀ m, replaced ts b m ∈ S) :
    Adjoint S (matrixOperator ts M) (matrixOperator ts Mᴴ) := by
  intro φ ψ
  simp only [overlap, matrixOperator_apply hdim, map_sum, map_mul, Finset.sum_mul, Finset.mul_sum]
  rw [sum_sum_replaced hdim hts hS]
  simp only [rowOf_replaced hdim hts, replaced_replaced, replaced_rowOf hdim hts,
    Matrix.conjTranspose_apply, RCLike.star_def]
  refine Finset.sum_congr rfl fun b _ => Finset.sum_congr rfl fun m _ => ?_
  ring

theorem preserves_matrixOperator (hdim : dim = 2 ^ ts.length) (hts : ts.Nodup)
    (hS : ∀ b ∈ S, ∀ m, replaced ts b m ∈ S) (hM : Mᴴ * M = 1) :
    Preserves S (matrixOperator ts M) := by
  refine Preserves.of_adjoint (adjoint_matrixOperator hdim hts hS) ?_
  rw [← matrixOperator_mul hdim hts, hM, matrixOperator_one hdim hts]

/-- A diagonal matrix multiplies every amplitude by the entry of its row. -/
theorem matrixOperator_diagonal (hdim : dim = 2 ^ ts.length) (hts : ts.Nodup) (d : Fin dim → ℂ)
    (ψ : ℕ → ℂ) (b : ℕ) :
    matrixOperator ts (Matrix.diagonal d) ψ b = d (rowOf hdim b) * ψ b := by
  rw [matrixOperator_apply hdim, Finset.sum_eq_single (rowOf hdim b)]
  · rw [Matrix.diagonal_apply_eq, replaced_rowOf hdim hts]
  · intro m _ hm
    rw [Matrix.diagonal_apply_ne _ (Ne.symm hm), zero_mul]
  · intro h
    exact absurd (Finset.mem_univ _) h

theorem shrinks_diagonal (hdim : dim = 2 ^ ts.length) (hts : ts.Nodup) {d : Fin dim → ℂ}
    (hd : ∀ row, Complex.normSq (d row) ≤ 1) : Shrinks S (matrixOperator ts (Matrix.diagonal d)) := by
  intro ψ
  refine Finset.sum_le_sum fun b _ => ?_
  rw [matrixOperator_diagonal hdim hts, Complex.normSq_mul]
  exact mul_le_of_le_one_left (Complex.normSq_nonneg _) (hd _)

end Matrices

/-! ### Registers -/

section Registers

variable {n : ℕ} {ts cs : List Qubit}

/-- The basis indices of a register at which all controls are set. -/
def controlledIndices (n : ℕ) (cs : List Qubit) : Finset ℕ :=
  (Finset.range (2 ^ n)).filter (AllSet cs)

/-- Replacing the targets keeps an index in the register, and the controls set. -/
theorem replaced_mem_controlledIndices (hfit : FitOperands n (ts ++ cs)) :
    ∀ b ∈ controlledIndices n cs, ∀ m, replaced ts b m ∈ controlledIndices n cs := by
  intro b hb m
  obtain ⟨hlt, hset⟩ := Finset.mem_filter.mp hb
  refine Finset.mem_filter.mpr ⟨Finset.mem_range.mpr ?_, fun q hq => ?_⟩
  · exact replaced_lt (Finset.mem_range.mp hlt)
      (fun q hq => hfit.inside q (List.mem_append_left _ hq)) m
  · have hq' : q ∉ ts := fun h => (List.nodup_append.mp hfit.distinct).2.2 q h q hq rfl
    rw [testBit_replaced_of_notMem b m hq', hset q hq]

/-- So does flipping bits of the targets. -/
theorem flipped_mem_controlledIndices (hfit : FitOperands n (ts ++ cs)) (ps : List Pauli) :
    ∀ b ∈ controlledIndices n cs, b ^^^ flipMask (ts.zip ps) ∈ controlledIndices n cs := by
  intro b hb
  obtain ⟨hlt, hset⟩ := Finset.mem_filter.mp hb
  have hmask : flipMask (ts.zip ps) < 2 ^ n :=
    flipMask_lt fun a ha => hfit.inside a.1 (List.mem_append_left _ (List.of_mem_zip ha).1)
  refine Finset.mem_filter.mpr ⟨Finset.mem_range.mpr ?_, ?_⟩
  · exact Nat.xor_lt_two_pow (Finset.mem_range.mp hlt) hmask
  · rw [← isActive_iff ts cs, isActive_xor_flipMask hfit.distinct, isActive_iff]
    exact hset

end Registers

namespace StateVector

variable {s t : StateVector ℝ}

/-- **The inner product of two registers of equal width** is the sum over their basis indices. -/
theorem inner?_eq (hs : s.WellFormed) (ht : t.WellFormed) (hn : s.qubitCount = t.qubitCount) :
    ∃ a, s.inner? t = some a ∧
      a.toComplex = overlap (Finset.range (2 ^ s.qubitCount)) s.amp t.amp := by
  have hsize : s.amplitudes.size = 2 ^ s.qubitCount := hs.trans (dimension_eq _)
  have hsize' : t.amplitudes.size = 2 ^ s.qubitCount := hn ▸ ht.trans (dimension_eq _)
  refine ⟨_, if_pos (hsize.trans hsize'.symm), ?_⟩
  rw [Amplitude.toComplex_sum, overlap, Finset.sum_range, ← List.sum_ofFn]
  congr 1
  refine List.ext_getElem (by simp [hsize, hsize']) fun b hb hb' => ?_
  simp [amp, hsize, hsize']

/-- The squared norm is the sum of the squared absolute values. -/
theorem normSq_eq (hs : s.WellFormed) : s.normSq = weight (Finset.range (2 ^ s.qubitCount)) s.amp := by
  have hsize : s.amplitudes.size = 2 ^ s.qubitCount := hs.trans (dimension_eq _)
  rw [normSq, probabilities, weight, Finset.sum_range, ← List.sum_ofFn, ← Array.foldl_toList,
    ← List.sum_eq_foldl]
  congr 1
  refine List.ext_getElem (by simp [hsize]) fun b hb hb' => ?_
  simp [amp, hsize]

end StateVector
end GateCircuit
