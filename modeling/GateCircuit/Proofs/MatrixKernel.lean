/-
# The matrix kernel applies its operator

The sweep of the matrix kernel is local: the block at a base is read and written by the step of that
base only. So every amplitude of the result is a row of the matrix times the block it lies in, read
from the state the sweep began with, and the kernel does to a state what the operator of the matrix
does to its amplitudes.

Key theorems: `localSweep_denseStep`, `getD_denseSweep`, `StateVector.applyMatrix_becomes`.
-/
import Mathlib
import GateCircuit.Proofs.State

namespace GateCircuit

theorem blockSize_le (k : ℕ) : blockSize k ≤ 2 ^ k := by
  rw [blockSize, Nat.one_shiftLeft]
  exact Nat.pow_le_pow_right (by omega) (Nat.mod_le k 64)

theorem blockSize_eq {k : ℕ} (hk : k < 64) : blockSize k = 2 ^ k := by
  rw [blockSize, Nat.mod_eq_of_lt hk, Nat.one_shiftLeft]

theorem blockEntries_eq {k : ℕ} (hk : k < 32) : blockEntries (2 ^ k) = 2 ^ k * 2 ^ k := by
  have hlt : 2 ^ k * 2 ^ k < 2 ^ 64 := by
    rw [← pow_add]
    exact Nat.pow_lt_pow_right (by omega) (by omega)
  exact Nat.mod_eq_of_lt hlt

/-- As long as no word overflows, a matrix on `k` targets has `4 ^ k` entries. -/
theorem blockEntries_blockSize {k : ℕ} (hk : k < 32) : blockEntries (blockSize k) = 4 ^ k := by
  rw [blockSize_eq (by omega), blockEntries_eq hk, ← mul_pow]
  rfl

theorem cleared_or_spread {ts : List Qubit} {base : ℕ} (h : base &&& maskOf ts = 0) (m : ℕ) :
    cleared ts (base ||| spread ts m) = base := by
  have := @cleared_replaced ts base m
  rwa [replaced, cleared_eq_self h] at this

/-- Clearing the targets does not touch the controls. -/
theorem allSet_cleared {ts cs : List Qubit} (h : (ts ++ cs).Nodup) (b : ℕ) :
    AllSet cs (cleared ts b) ↔ AllSet cs b := by
  have hdis := (List.nodup_append.mp h).2.2
  refine forall₂_congr fun q hq => ?_
  have hq' : q ∉ ts := fun ht => hdis q ht q hq rfl
  rw [testBit_cleared]
  simp [hq']

section Sweep

variable {R : Type} [Scalar R] (matrix : Array (Amplitude R)) (ts cs : List Qubit) (dim : ℕ)

/-- The target bits that each row of a matrix with `dim` rows sets. -/
def rowOffsets : Array ℕ := (Array.range dim).map (spread ts)

/-- The block of amplitudes at a base. -/
def column (base : ℕ) (amps : Array (Amplitude R)) : Array (Amplitude R) :=
  (rowOffsets ts dim).map fun offset => amps.getD (base ||| offset) 0

/-- One step of the sweep. -/
def denseStep (base : ℕ) (amps : Array (Amplitude R)) : Array (Amplitude R) :=
  if base &&& maskOf ts == 0 && (⟨maskOf ts, maskOf cs⟩ : Operands).isActive base then
    writeBlock matrix (rowOffsets ts dim) base amps
  else amps

theorem size_rowOffsets : (rowOffsets ts dim).size = dim := by simp [rowOffsets]

theorem getD_rowOffsets {row : ℕ} (h : row < dim) : (rowOffsets ts dim).getD row 0 = spread ts row := by
  simp [rowOffsets, h]

theorem getD_column {m : ℕ} (h : m < dim) (base : ℕ) (amps : Array (Amplitude R)) :
    (column ts dim base amps).getD m 0 = amps.getD (base ||| spread ts m) 0 := by
  simp [column, rowOffsets, h]

theorem writeBlock_eq_scatter (base : ℕ) (amps : Array (Amplitude R)) :
    writeBlock matrix (rowOffsets ts dim) base amps =
      scatter (fun row => base ||| (rowOffsets ts dim).getD row 0)
        (rowSum matrix (column ts dim base amps)) dim amps := by
  rw [scatter, writeBlock, size_rowOffsets]
  rfl

theorem size_denseStep (base : ℕ) (amps : Array (Amplitude R)) :
    (denseStep matrix ts cs dim base amps).size = amps.size := by
  unfold denseStep
  split
  · rw [writeBlock_eq_scatter, size_scatter]
  · rfl

/-- A step leaves the other blocks alone. -/
theorem getD_denseStep_of_ne {base b : ℕ} (hb : cleared ts b ≠ base) (amps : Array (Amplitude R)) :
    (denseStep matrix ts cs dim base amps).getD b 0 = amps.getD b 0 := by
  unfold denseStep
  split
  · rename_i hc
    have hbase : base &&& maskOf ts = 0 := by
      rw [Bool.and_eq_true, beq_iff_eq] at hc
      exact hc.1
    rw [writeBlock_eq_scatter]
    refine getD_scatter_of_ne _ _ _ _ fun row hrow h => hb ?_
    rw [← h, getD_rowOffsets ts dim hrow, cleared_or_spread hbase]
  · rfl

variable {ts cs dim}

/-- What a step makes of an amplitude in its block. -/
theorem getD_denseStep (hnd : (ts ++ cs).Nodup) (hdim : dim ≤ 2 ^ ts.length)
    {b : ℕ} (amps : Array (Amplitude R)) (hb : b < amps.size) :
    (denseStep matrix ts cs dim (cleared ts b) amps).getD b 0 =
      if AllSet cs b ∧ gather ts b < dim then
        rowSum matrix (column ts dim (cleared ts b) amps) (gather ts b)
      else amps.getD b 0 := by
  have hts : ts.Nodup := (List.nodup_append.mp hnd).1
  have hcond : ((cleared ts b &&& maskOf ts == 0) &&
      (⟨maskOf ts, maskOf cs⟩ : Operands).isActive (cleared ts b)) = true ↔ AllSet cs b := by
    rw [Bool.and_eq_true, beq_iff_eq, isActive_iff, allSet_cleared hnd]
    simp [cleared_and_maskOf]
  have hplace : ∀ row < dim, cleared ts b ||| (rowOffsets ts dim).getD row 0 = replaced ts b row := by
    intro row hrow
    rw [getD_rowOffsets ts dim hrow, replaced]
  have hgather : ∀ row < dim, gather ts (replaced ts b row) = row := fun row hrow =>
    gather_replaced b hts (hrow.trans_le hdim)
  rw [denseStep]
  by_cases hcs : AllSet cs b
  · rw [if_pos (hcond.mpr hcs), writeBlock_eq_scatter]
    by_cases hrow : gather ts b < dim
    · rw [if_pos ⟨hcs, hrow⟩]
      have hself : cleared ts b ||| (rowOffsets ts dim).getD (gather ts b) 0 = b := by
        rw [hplace _ hrow, replaced_gather b hts]
      have hinj : ∀ r < dim, ∀ r' < dim, cleared ts b ||| (rowOffsets ts dim).getD r 0 =
          cleared ts b ||| (rowOffsets ts dim).getD r' 0 → r = r' := by
        intro r hr r' hr' h
        rw [hplace r hr, hplace r' hr'] at h
        rw [← hgather r hr, h, hgather r' hr']
      have hin : cleared ts b ||| (rowOffsets ts dim).getD (gather ts b) 0 < amps.size := by
        rwa [hself]
      have := getD_scatter (d := 0) (fun row => cleared ts b ||| (rowOffsets ts dim).getD row 0)
        (rowSum matrix (column ts dim (cleared ts b) amps)) dim amps hrow hinj hin
      simpa only [hself] using this
    · rw [if_neg (by simp [hrow])]
      refine getD_scatter_of_ne _ _ _ _ fun row hr h => hrow ?_
      rw [hplace row hr] at h
      rw [← h, hgather row hr]
      exact hr
  · rw [if_neg (by rw [hcond]; exact hcs), if_neg (by simp [hcs])]

theorem localSweep_denseStep (hnd : (ts ++ cs).Nodup) (hdim : dim ≤ 2 ^ ts.length) :
    LocalSweep (cleared ts) 0 (denseStep matrix ts cs dim) where
  size := size_denseStep matrix ts cs dim
  frame _ a _ hb := getD_denseStep_of_ne matrix ts cs dim hb a
  reads := by
    intro k a a' hsize hsame b hlt hb
    subst hb
    -- the amplitudes that the step reads lie in the block of `b`
    have hcol : column ts dim (cleared ts b) a = column ts dim (cleared ts b) a' := by
      refine Array.map_congr_left fun offset ho => ?_
      obtain ⟨m, -, rfl⟩ := Array.mem_map.mp ho
      exact hsame _ (cleared_or_spread (cleared_and_maskOf ts b) m)
    rw [getD_denseStep matrix hnd hdim a hlt, getD_denseStep matrix hnd hdim a' (hsize ▸ hlt), hcol,
      hsame b rfl]

/-- **The sweep multiplies all blocks at once.** Every amplitude on which the controls are set
becomes a row times its block in the original array. -/
theorem getD_denseSweep (hnd : (ts ++ cs).Nodup) (hdim : dim ≤ 2 ^ ts.length)
    (amps : Array (Amplitude R)) {b : ℕ} (hb : b < amps.size) :
    (denseSweep matrix (rowOffsets ts dim) ⟨maskOf ts, maskOf cs⟩ amps).getD b 0 =
      if AllSet cs b ∧ gather ts b < dim then
        rowSum matrix (column ts dim (cleared ts b) amps) (gather ts b)
      else amps.getD b 0 := by
  have hlt : cleared ts b < amps.size := (cleared_le ts b).trans_lt hb
  rw [← getD_denseStep matrix hnd hdim amps hb]
  have := (localSweep_denseStep matrix hnd hdim).getD_fold amps amps.size b
  rwa [if_pos hlt] at this

theorem size_denseSweep (hnd : (ts ++ cs).Nodup) (hdim : dim ≤ 2 ^ ts.length)
    (amps : Array (Amplitude R)) :
    (denseSweep matrix (rowOffsets ts dim) ⟨maskOf ts, maskOf cs⟩ amps).size = amps.size :=
  (localSweep_denseStep matrix hnd hdim).size_fold amps amps.size

end Sweep

/-! ### Over exact scalars -/

theorem toComplex_fold (f : ℕ → Amplitude ℝ) (n : ℕ) :
    (Nat.fold n (fun m _ acc => acc + f m) (0 : Amplitude ℝ)).toComplex =
      ∑ m ∈ Finset.range n, (f m).toComplex := by
  induction n with
  | zero => simp
  | succ n ih => rw [Nat.fold_succ, Amplitude.toComplex_add, ih, Finset.sum_range_succ]

/-- A row times a block, as a sum of complex numbers. -/
theorem toComplex_rowSum (matrix : Array (Amplitude ℝ)) (ts : List Qubit) (dim b row : ℕ)
    (amps : Array (Amplitude ℝ)) :
    (rowSum matrix (column ts dim (cleared ts b) amps) row).toComplex =
      ∑ m ∈ Finset.range dim,
        (matrix.getD (row * dim + m) 0).toComplex * (amps.getD (replaced ts b m) 0).toComplex := by
  have hsize : (column ts dim (cleared ts b) amps).size = dim := by simp [column, size_rowOffsets]
  rw [rowSum, hsize, toComplex_fold]
  refine Finset.sum_congr rfl fun m hm => ?_
  rw [Amplitude.toComplex_mul, getD_column ts dim (Finset.mem_range.mp hm)]
  rfl

namespace StateVector

/-- **The matrix kernel.** On operands that fit and with a matrix of the right size it succeeds, and
does to the amplitudes what its operator does. -/
theorem applyMatrix_becomes {s : StateVector ℝ} (hs : s.WellFormed) {ts cs : List Qubit}
    {entries : Array (Amplitude ℝ)} (h : (KernelCall.matrix ts cs entries).Fits s.qubitCount) :
    ∃ t, s.applyMatrix ts cs entries = .ok t ∧
      s.Becomes (KernelCall.matrix ts cs entries).operator t := by
  have hfit : FitOperands s.qubitCount (ts ++ cs) := h.operands
  have hnd := hfit.distinct
  have hdim := blockSize_le ts.length
  have hsize : entries.size = blockEntries (blockSize ts.length) := h.size
  have hops := operands_eq_ok.mpr ⟨hfit, rfl⟩
  set dim := blockSize ts.length with hd
  have hswept := size_denseSweep entries hnd hdim s.amplitudes
  refine ⟨_, ?_, Becomes.of_amplitudes hs h.isLocal hswept fun b hb => ?_⟩
  · rw [applyMatrix, hops]
    simp only [bind, Except.bind, ← hd, hsize, if_true]
    rfl
  · have hb' : b < s.amplitudes.size := by rwa [hs, dimension_eq]
    rw [getD_denseSweep entries hnd hdim s.amplitudes hb', KernelCall.operator, controlled_apply,
      blockOperator_apply, ← hd]
    by_cases hc : AllSet cs b
    · by_cases hr : gather ts b < dim
      · rw [if_pos ⟨hc, hr⟩, if_pos hc, if_pos hr, toComplex_rowSum]
        rfl
      · rw [if_neg (by simp [hr]), if_pos hc, if_neg hr]
        rfl
    · rw [if_neg (by simp [hc]), if_neg hc]
      rfl

end StateVector
end GateCircuit
