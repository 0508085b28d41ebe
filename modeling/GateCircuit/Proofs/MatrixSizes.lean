/-
# What sizes of matrices are accepted

A matrix on `k` targets should have `4 ^ k` entries. The number is computed twice, in words that can
overflow. The factory counts in a 32-bit word by how much it shifts, which forgets multiples of `2 ^ 31`
targets: there are enough qubits for so many targets, and then one entry can be all that is asked for. The
kernel multiplies two 64-bit words, so from 32 targets on it asks for no entries at all; then it looks for
the rows of a matrix that has none. Below these numbers both are exact, and what the kernel finishes is
exact always: a matrix on more targets does not fit in memory.

Key theorems: `size_eq_matrixSize`, `make_dense_iff`, `blockEntries_word`, `applyMatrix?_square`,
`applyMatrix?_empty`, `applyMatrix?_outcome`, `measured_matrices`, `single_entry_accepted`.
-/
import Mathlib
import GateCircuit.Proofs.CheckedAccess
import GateCircuit.Proofs.FactoryChecks

namespace GateCircuit

/-! ### The factory -/

/-- The shift by a 32-bit word forgets a multiple of `2 ^ 31` targets. -/
theorem matrixSize_mod (k : ℕ) : matrixSize k = matrixSize (k % 2 ^ 31) := by
  have hword : 2 * k % (maxCount + 1) = 2 * (k % 2 ^ 31) % (maxCount + 1) := by
    unfold maxCount
    omega
  rw [matrixSize, matrixSize, hword]

theorem size_eq_matrixSize {k size : ℕ} (hsize : size < 2 ^ 59) :
    size = matrixSize k ↔ size = 4 ^ (k % 2 ^ 31) := by
  rw [matrixSize_mod, size_eq_matrixSize_iff (Nat.mod_lt k (by decide)) hsize]

namespace Gate

variable {R : Type} {matrix : Array (Amplitude R)} {ts cs : List Qubit}

/-- **The factory** takes a matrix of so many entries, on distinct operands. -/
theorem make_dense_iff (hts : ts ≠ []) (hsize : matrix.size < 2 ^ 59) :
    (∃ g, Gate.make (.dense matrix) ts cs = .ok g) ↔
      matrix.size = 4 ^ (ts.length % 2 ^ 31) ∧ (ts ++ cs).Nodup := by
  have hcheck : checkSize (.dense matrix) ts = .ok () ↔ matrix.size = 4 ^ (ts.length % 2 ^ 31) :=
    Outcome.check_eq_ok.trans (size_eq_matrixSize hsize)
  simp only [make_eq_ok, hcheck]
  constructor
  · rintro ⟨g, -, hentries, hnd, -⟩
    exact ⟨hentries, hnd⟩
  · rintro ⟨hentries, hnd⟩
    exact ⟨_, fun h => absurd h hts, hentries, hnd, rfl⟩

end Gate

/-! ### The kernel -/

/-- The number of entries that the kernel asks for. The product of two words leaves its word from 32 targets
on, and nothing is left of it. -/
theorem blockEntries_word {k : ℕ} (hk : k < 64) :
    blockEntries (blockSize k) = if k < 32 then 4 ^ k else 0 := by
  split
  · rename_i hsmall
    exact blockEntries_blockSize hsmall
  · have hsplit : 2 ^ k * 2 ^ k = (maxWord + 1) * 2 ^ (2 * k - 64) := by
      rw [← pow_add, show k + k = 64 + (2 * k - 64) by omega, pow_add]
      rfl
    rw [blockSize_eq hk, blockEntries, hsplit, Nat.mul_mod_right]

section Empty

variable {R : Type} [Scalar R] {matrix : Array (Amplitude R)} {offsets : Array ℕ}

/-- A matrix without entries has no first row. -/
theorem writeBlock?_empty (hmatrix : matrix.size = 0) (hoffsets : 0 < offsets.size) (base : ℕ)
    (amps : Array (Amplitude R)) : writeBlock? matrix offsets base amps = none := by
  rw [writeBlock?]
  cases hold : offsets.mapM fun offset => amps[base ||| offset]? with
  | none => rfl
  | some old =>
    have hsize : old.size = offsets.size :=
      SatisfiesM_Option_eq.mp (Array.size_mapM _ offsets) old hold
    refine loop?_eq_none hoffsets (fun a => ?_) amps
    have hrow : rowSum? matrix old 0 = none := if_neg (by omega)
    rw [hrow]
    cases offsets[0]? <;> rfl

/-- Every call reaches a block: the one with the controls set, and nothing else. -/
theorem denseSweep?_empty {n : ℕ} {ts cs : List Qubit} (hfit : FitOperands n (ts ++ cs))
    (hmatrix : matrix.size = 0) (hoffsets : 0 < offsets.size) {amps : Array (Amplitude R)}
    (hamps : amps.size = 2 ^ n) :
    denseSweep? matrix offsets ⟨maskOf ts, maskOf cs⟩ amps = none := by
  obtain ⟨-, -, hdisjoint⟩ := List.nodup_append.mp hfit.distinct
  have hbase : maskOf cs < amps.size :=
    hamps ▸ maskOf_lt fun q hq => hfit.inside q (List.mem_append_right _ hq)
  have htargets : maskOf cs &&& maskOf ts = 0 := by
    refine Nat.eq_of_testBit_eq fun i => ?_
    rw [Nat.testBit_and, testBit_maskOf, testBit_maskOf, Nat.zero_testBit, ← Bool.decide_and,
      decide_eq_false_iff_not]
    rintro ⟨hc, ht⟩
    exact hdisjoint i ht i hc rfl
  have hactive : (⟨maskOf ts, maskOf cs⟩ : Operands).isActive (maskOf cs) = true := by
    rw [isActive_iff, ← and_maskOf_eq_iff, Nat.and_self]
  refine loop?_eq_none hbase (fun a => ?_) amps
  rw [if_pos (by simp [htargets, hactive])]
  exact writeBlock?_empty hmatrix hoffsets _ a

end Empty

namespace StateVector

/-- A register that memory can hold has fewer than 59 qubits. -/
theorem qubitCount_lt {R : Type} {s : StateVector R} (hs : s.WellFormed)
    (hamps : s.amplitudes.size < 2 ^ 59) : s.qubitCount < 59 := by
  rw [hs, dimension_eq] at hamps
  exact (Nat.pow_lt_pow_iff_right (by decide)).mp hamps

variable {R : Type} [Scalar R] {s : StateVector R} {ts cs : List Qubit}
  {matrix : Array (Amplitude R)}

/-- On operands that fit, only the number of entries is checked. -/
theorem applyMatrix?_of_fit (hfit : FitOperands s.qubitCount (ts ++ cs)) :
    s.applyMatrix? ts cs matrix =
      if matrix.size = blockEntries (blockSize ts.length) then
        (denseSweep? matrix ((Array.range (blockSize ts.length)).map (spread ts))
          ⟨maskOf ts, maskOf cs⟩ s.amplitudes).map fun amps => .ok { s with amplitudes := amps }
      else some (.error (.invalidMatrix (blockEntries (blockSize ts.length)) matrix.size)) := by
  rw [applyMatrix?, operands_eq_ok.mpr ⟨hfit, rfl⟩]

/-- **The size that the kernel asks for.** -/
theorem applyMatrix_ok_iff (hs : s.WellFormed) (hamps : s.amplitudes.size < 2 ^ 59)
    (hfit : FitOperands s.qubitCount (ts ++ cs)) :
    (∃ t, s.applyMatrix ts cs matrix = .ok t) ↔
      matrix.size = if ts.length < 32 then 4 ^ ts.length else 0 := by
  have hlength := hfit.length_le
  have hwide := qubitCount_lt hs hamps
  rw [List.length_append] at hlength
  rw [← blockEntries_word (show ts.length < 64 by omega)]
  constructor
  · rintro ⟨t, ht⟩
    have hfits : (KernelCall.matrix ts cs matrix).Fits s.qubitCount := fits_of_perform_ok ht
    exact hfits.size
  · intro hsize
    have hfits : (KernelCall.matrix ts cs matrix).Fits s.qubitCount := ⟨hfit, hsize⟩
    exact perform_ok_of_fits hfits

/-- Where no word overflows the kernel finds all rows of a matrix. -/
theorem applyMatrix?_square (hs : s.WellFormed) (hfit : FitOperands s.qubitCount (ts ++ cs))
    (hsmall : ts.length < 32) (hsize : matrix.size = 4 ^ ts.length) :
    ∃ t, s.applyMatrix? ts cs matrix = some (.ok t) := by
  have hrows : blockSize ts.length * blockSize ts.length = 4 ^ ts.length := by
    rw [blockSize_eq (by omega), ← mul_pow]
    rfl
  have hfits : (KernelCall.matrix ts cs matrix).Fits s.qubitCount :=
    ⟨hfit, hsize.trans (blockEntries_blockSize hsmall).symm⟩
  obtain ⟨t, ht⟩ := perform_ok_of_fits hfits
  exact ⟨t, (applyMatrix?_eq hs (hrows.trans hsize.symm).le).trans (congrArg some ht)⟩

/-- On more targets it accepts a matrix without entries, and does not find the first row. -/
theorem applyMatrix?_empty (hs : s.WellFormed) (hfit : FitOperands s.qubitCount (ts ++ cs))
    (hlarge : 32 ≤ ts.length) (hword : ts.length < 64) (hempty : matrix.size = 0) :
    s.applyMatrix? ts cs matrix = none := by
  have hasked : blockEntries (blockSize ts.length) = 0 := by
    rw [blockEntries_word hword, if_neg (Nat.not_lt.mpr hlarge)]
  have hoffsets : 0 < ((Array.range (blockSize ts.length)).map (spread ts)).size := by
    simp [blockSize_eq hword]
  rw [applyMatrix?_of_fit hfit, if_pos (hempty.trans hasked.symm),
    denseSweep?_empty hfit hempty hoffsets (hs.trans (dimension_eq _))]
  rfl

/-- **What the kernel makes of a matrix** on operands that fit. If it finishes then the matrix has `4 ^ k`
entries for `k` targets; it misses an entry if there is none and more than 31 targets; and otherwise it
refuses the matrix. -/
theorem applyMatrix?_outcome (hs : s.WellFormed) (hamps : s.amplitudes.size < 2 ^ 59)
    (hfit : FitOperands s.qubitCount (ts ++ cs)) (hmatrix : matrix.size < 2 ^ 59) :
    (matrix.size = 4 ^ ts.length ∧ ∃ t, s.applyMatrix? ts cs matrix = some (.ok t)) ∨
    (matrix.size = 0 ∧ 32 ≤ ts.length ∧ s.applyMatrix? ts cs matrix = none) ∨
    (matrix.size ≠ 4 ^ ts.length ∧ ¬ (matrix.size = 0 ∧ 32 ≤ ts.length) ∧ ∃ expected,
      s.applyMatrix? ts cs matrix = some (.error (.invalidMatrix expected matrix.size))) := by
  have hlength := hfit.length_le
  have hwide := qubitCount_lt hs hamps
  rw [List.length_append] at hlength
  have hword : ts.length < 64 := by omega
  have hrefused : matrix.size ≠ blockEntries (blockSize ts.length) → ∃ expected,
      s.applyMatrix? ts cs matrix = some (.error (.invalidMatrix expected matrix.size)) := by
    intro hsize
    exact ⟨_, (applyMatrix?_of_fit hfit).trans (if_neg hsize)⟩
  rw [blockEntries_word hword] at hrefused
  by_cases hsmall : ts.length < 32
  · rw [if_pos hsmall] at hrefused
    by_cases hsize : matrix.size = 4 ^ ts.length
    · exact .inl ⟨hsize, applyMatrix?_square hs hfit hsmall hsize⟩
    · exact .inr (.inr ⟨hsize, fun h => hsmall.not_ge h.2, hrefused hsize⟩)
  · rw [if_neg hsmall] at hrefused
    have hlarge : 32 ≤ ts.length := Nat.le_of_not_lt hsmall
    have hpow : 4 ^ 32 ≤ 4 ^ ts.length := Nat.pow_le_pow_right (by decide) hlarge
    by_cases hempty : matrix.size = 0
    · exact .inr (.inl ⟨hempty, hlarge, applyMatrix?_empty hs hfit hlarge hword hempty⟩)
    · exact .inr (.inr ⟨by omega, fun h => hempty h.1, hrefused hempty⟩)

end StateVector

/-- **The sizes of matrices.** On operands without repetition the factory takes a matrix exactly if it has
`4 ^ k` entries, where `k` is the number of targets up to multiples of `2 ^ 31`. The size that a kernel asks
for on a register of given amplitudes is `4 ^ k` up to 31 targets, and zero from there on. If all accesses
are checked then the kernel finishes exactly on matrices of `4 ^ k` entries, and comes to no result exactly
on those that have no entry and more than 31 targets. -/
theorem measured_matrices {R : Type} [Scalar R] {matrix : Array (Amplitude R)}
    (hmatrix : matrix.size < 2 ^ 59) {ts cs : List Qubit} (hts : ts ≠ []) :
    ((∃ g, Gate.make (.dense matrix) ts cs = .ok g) ↔
      matrix.size = 4 ^ (ts.length % 2 ^ 31) ∧ (ts ++ cs).Nodup) ∧
    ∀ (amps : Array (Amplitude R)) (s : StateVector R), amps.size < 2 ^ 59 →
      StateVector.ofAmplitudes amps = .ok s → FitOperands s.qubitCount (ts ++ cs) →
      ((∃ t, s.applyMatrix ts cs matrix = .ok t) ↔
        matrix.size = if ts.length < 32 then 4 ^ ts.length else 0) ∧
      ((∃ t, s.applyMatrix? ts cs matrix = some (.ok t)) ↔ matrix.size = 4 ^ ts.length) ∧
      (s.applyMatrix? ts cs matrix = none ↔ matrix.size = 0 ∧ 32 ≤ ts.length) := by
  refine ⟨Gate.make_dense_iff hts hmatrix, fun amps s hamps hs hfit => ?_⟩
  have hwf := StateVector.wellFormed_ofAmplitudes hs
  have hsize : s.amplitudes.size < 2 ^ 59 := by
    rwa [StateVector.amplitudes_ofAmplitudes hs]
  refine ⟨StateVector.applyMatrix_ok_iff hwf hsize hfit, ?_⟩
  rcases StateVector.applyMatrix?_outcome hwf hsize hfit hmatrix with
    ⟨hentries, t, ht⟩ | ⟨hempty, hlarge, hnone⟩ | ⟨hentries, hother, expected, herror⟩
  · rw [ht]
    refine ⟨iff_of_true ⟨t, rfl⟩ hentries, iff_of_false (by simp) fun hempty => ?_⟩
    exact (Nat.pow_pos (by decide)).ne (hempty.1.symm.trans hentries)
  · rw [hnone]
    refine ⟨iff_of_false (by simp) fun hentries => ?_, iff_of_true rfl ⟨hempty, hlarge⟩⟩
    exact (Nat.pow_pos (by decide)).ne (hempty.symm.trans hentries)
  · rw [herror]
    exact ⟨iff_of_false (by simp) hentries, iff_of_false (by simp) hother⟩

/-- A swap, on two targets and a control: the factory takes its matrix, and the kernel finishes on a register
of three qubits. On one target it has too many entries. -/
theorem measured_matrices_swap :
    let swap : Array (Amplitude Float) := NamedGate.swap.matrix
    let s : StateVector Float := ⟨Array.replicate 8 0, 3⟩
    swap.size < 2 ^ 59 ∧ [0, 1] ≠ ([] : List Qubit) ∧ [0] ≠ ([] : List Qubit) ∧
      (∃ g, Gate.make (.dense swap) [0, 1] [2] = .ok g) ∧
      (¬ ∃ g, Gate.make (.dense swap) [0] [2] = .ok g) ∧
      s.amplitudes.size < 2 ^ 59 ∧ StateVector.ofAmplitudes s.amplitudes = .ok s ∧
      FitOperands s.qubitCount ([0, 1] ++ [2]) ∧
      ∃ t, s.applyMatrix? [0, 1] [2] swap = some (.ok t) := by
  intro swap s
  have hsize : swap.size = 16 := rfl
  have hmemory : swap.size < 2 ^ 59 := (by decide : 16 < 2 ^ 59)
  have hamps : s.amplitudes.size < 2 ^ 59 := (by decide : 8 < 2 ^ 59)
  have hs : StateVector.ofAmplitudes s.amplitudes = .ok s :=
    StateVector.wellFormed_iff_ofAmplitudes.mp rfl
  have hfit : FitOperands s.qubitCount ([0, 1] ++ [2]) :=
    ⟨show ∀ q ∈ [0, 1, 2], q < 3 by decide, by decide⟩
  have htwo : [0, 1] ≠ ([] : List Qubit) := by decide
  have hone : [0] ≠ ([] : List Qubit) := by decide
  refine ⟨hmemory, htwo, hone, ?_, ?_, hamps, hs, hfit, ?_⟩
  · exact (measured_matrices hmemory htwo).1.mpr ⟨hsize, by decide⟩
  · rw [(measured_matrices hmemory hone).1, hsize]
    decide
  · exact ((measured_matrices hmemory htwo).2 s.amplitudes s hamps hs hfit).2.1.mpr hsize

/-- **One entry for so many targets.** The factory takes a matrix of one entry on `2 ^ 31` targets. -/
theorem single_entry_accepted :
    let ts : List Qubit := List.range (2 ^ 31)
    let matrix : Array (Amplitude Float) := #[1]
    ts.Nodup ∧ (∀ q ∈ ts, q < 2 ^ 32) ∧ matrix.size < 2 ^ 59 ∧ matrix.size ≠ 4 ^ ts.length ∧
      Gate.make (.dense matrix) ts [] = .ok { kind := .dense matrix, targets := ts, controls := [] } := by
  intro ts matrix
  have hlength : ts.length = 2 ^ 31 := List.length_range
  have hts : ts ≠ [] := fun h => by
    rw [h] at hlength
    cases hlength
  have hsize : matrix.size < 2 ^ 59 := (by decide : 1 < 2 ^ 59)
  have hentries : matrix.size = 4 ^ (ts.length % 2 ^ 31) := by
    rw [hlength, Nat.mod_self]
    rfl
  have hnd : (ts ++ []).Nodup := by
    rw [List.append_nil]
    exact List.nodup_range
  refine ⟨List.nodup_range, fun q hq => (List.mem_range.mp hq).trans (by decide), hsize, ?_, ?_⟩
  · exact (Nat.one_lt_pow (hlength ▸ by decide) (by decide)).ne
  · obtain ⟨g, hg⟩ := (Gate.make_dense_iff hts hsize).mpr ⟨hentries, hnd⟩
    rw [hg, (Gate.make_eq_ok.mp hg).2.2.2]

end GateCircuit
