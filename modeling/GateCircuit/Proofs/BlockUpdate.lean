/-
# All blocks change at once

The matrix kernel works in one array, and what it writes for one base could be read for the next. It never
is: the block of an index is read and written for its own base only. So the amplitude at an index where
all controls are set becomes a row of the matrix times the block in the state before the call, the row
that the targets spell in the index, and any other amplitude stays as it was. The sum is added up from
the left, so nothing is asked of the scalars: they may round.

Key definition: `blockProduct`.
Key theorems: `rowSum_column`, `matrix_kernel_at_once`.
-/
import Mathlib
import GateCircuit.Proofs.MatrixKernel

namespace GateCircuit

section Sums

variable {R : Type} [Scalar R]

/-- A loop that adds up terms adds up their list. -/
theorem fold_add_eq_sum (f : ℕ → Amplitude R) (n : ℕ) :
    Nat.fold n (fun m _ acc => acc + f m) 0 = Amplitude.sum ((List.range n).map f) := by
  induction n with
  | zero => rfl
  | succ n ih =>
    rw [Nat.fold_succ, ih, Amplitude.sum, Amplitude.sum, List.range_succ, List.map_append,
      List.foldl_append]
    rfl

/-- The row of a matrix on the targets `ts` that the index `b` spells, times the block of `b`. -/
def blockProduct (entries : Array (Amplitude R)) (ts : List Qubit) (amps : Array (Amplitude R))
    (b : ℕ) : Amplitude R :=
  Amplitude.sum ((List.range (2 ^ ts.length)).map fun m =>
    entries.getD (gather ts b * 2 ^ ts.length + m) 0 * amps.getD (replaced ts b m) 0)

/-- A row times a column that was read out is the row times the block. -/
theorem rowSum_column (entries : Array (Amplitude R)) (ts : List Qubit) (amps : Array (Amplitude R))
    (b : ℕ) :
    rowSum entries (column ts (2 ^ ts.length) (cleared ts b) amps) (gather ts b) =
      blockProduct entries ts amps b := by
  have hsize : (column ts (2 ^ ts.length) (cleared ts b) amps).size = 2 ^ ts.length := by
    simp [column, size_rowOffsets]
  rw [rowSum, hsize, fold_add_eq_sum, blockProduct]
  congr 1
  refine List.map_congr_left fun m hm => ?_
  rw [getD_column ts _ (List.mem_range.mp hm), replaced]

end Sums

/-- A list of entries whose length is a word belongs to fewer than 32 targets. -/
theorem lt_of_pow_le_maxWord {k : ℕ} (h : 4 ^ k ≤ maxWord) : k < 32 := by
  by_contra hk
  have hlarge : 4 ^ 32 ≤ 4 ^ k := Nat.pow_le_pow_right (by decide) (Nat.le_of_not_lt hk)
  have hword : maxWord < 4 ^ 32 := by decide
  omega

variable {R : Type} [Scalar R]

/-- **The matrix kernel changes all amplitudes at once.** On operands that fit, a matrix of `4 ^ k`
entries on `k` targets, as many as a word can count, is applied: at every index where all controls are set
stands afterwards the row that the targets spell times the block before the call, and elsewhere what stood
there before. Bit `j` of a row or column number belongs to target `j`. -/
theorem matrix_kernel_at_once {s : StateVector R} (hs : s.WellFormed) {ts cs : List Qubit}
    (hfit : FitOperands s.qubitCount (ts ++ cs)) {entries : Array (Amplitude R)}
    (hsize : entries.size = 4 ^ ts.length) (hword : entries.size ≤ maxWord) :
    (∃ t, s.applyMatrix ts cs entries = .ok t ∧ t.WellFormed ∧ t.qubitCount = s.qubitCount ∧
      ∀ b < 2 ^ s.qubitCount, t.amplitudes[b]? = some
        (if AllSet cs b then blockProduct entries ts s.amplitudes b else s.amplitudes.getD b 0)) ∧
    ∀ b, gather ts b < 2 ^ ts.length ∧
      (∀ (j : ℕ) (hj : j < ts.length), (gather ts b).testBit j = b.testBit ts[j]) ∧
      ∀ m, (∀ (j : ℕ) (hj : j < ts.length), (replaced ts b m).testBit ts[j] = m.testBit j) ∧
        ∀ i, i ∉ ts → (replaced ts b m).testBit i = b.testBit i := by
  have hts : ts.Nodup := (List.nodup_append.mp hfit.distinct).1
  have hlen : ts.length < 32 := lt_of_pow_le_maxWord (hsize ▸ hword)
  have hblock : blockSize ts.length = 2 ^ ts.length := blockSize_eq (by omega)
  have hentries : entries.size = blockEntries (blockSize ts.length) := by
    rw [hblock, blockEntries_eq hlen, hsize, ← mul_pow]
    rfl
  have hops := StateVector.operands_eq_ok.mpr ⟨hfit, rfl⟩
  set swept := denseSweep entries (rowOffsets ts (2 ^ ts.length)) ⟨maskOf ts, maskOf cs⟩ s.amplitudes
    with hswept
  have hsame : swept.size = s.amplitudes.size := size_denseSweep entries hfit.distinct le_rfl _
  constructor
  · refine ⟨⟨swept, s.qubitCount⟩, ?_, hsame.trans hs, rfl, fun b hb => ?_⟩
    · rw [StateVector.applyMatrix, hops]
      simp only [bind, Except.bind, hentries, if_true, hblock]
      rfl
    · have hb' : b < s.amplitudes.size := by rwa [hs, dimension_eq]
      have hvalue := getD_denseSweep entries hfit.distinct le_rfl s.amplitudes hb'
      simp only [gather_lt, and_true, rowSum_column] at hvalue
      have hin : b < swept.size := hsame.symm ▸ hb'
      rw [← hvalue, ← hswept, Array.getD_eq_getD_getElem?, Array.getElem?_eq_getElem hin,
        Option.getD_some]
  · intro b
    refine ⟨gather_lt b ts, testBit_gather b ts, fun m => ⟨fun j hj => ?_, fun i hi => ?_⟩⟩
    · exact testBit_replaced b m hts hj
    · exact testBit_replaced_of_notMem b m hi

/-- The entries 0 to 15, row by row. -/
def countingMatrix : Array (Amplitude Float) := (Array.range 16).map fun k => ⟨Float.ofNat k, 0⟩

/-- The counting matrix on two of three qubits, the higher one first, conditioned on the third. -/
theorem matrix_kernel_at_once_reversed :
    (basisState 3 2 : StateVector Float).WellFormed ∧ FitOperands 3 ([2, 0] ++ [1]) ∧
      countingMatrix.size = 4 ^ [2, 0].length ∧ countingMatrix.size ≤ maxWord ∧
      ∃ t, (basisState 3 2 : StateVector Float).applyMatrix [2, 0] [1] countingMatrix = .ok t ∧
        t.amplitudes[6]? = some ⟨4, 0⟩ ∧ t.amplitudes[0]? = some ⟨0, 0⟩ := by
  have hs := StateVector.wellFormed_basisState (R := Float) 3 2
  have hfit : FitOperands 3 ([2, 0] ++ [1]) := ⟨by decide, by decide⟩
  have hsize : countingMatrix.size = 4 ^ [2, 0].length := by simp [countingMatrix]
  have hword : countingMatrix.size ≤ maxWord := by simp [countingMatrix, maxWord]
  obtain ⟨⟨t, ht, -, -, hamps⟩, -⟩ := matrix_kernel_at_once hs hfit hsize hword
  refine ⟨hs, hfit, hsize, hword, t, ht, (hamps 6 (by decide)).trans ?_,
    (hamps 0 (by decide)).trans ?_⟩
  · decide +kernel
  · decide +kernel

end GateCircuit
