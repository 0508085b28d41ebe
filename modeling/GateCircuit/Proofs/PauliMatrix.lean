/-
# Pauli strings as matrices

The matrix of a Pauli string has one entry in every row that is not zero: in the column where the
bits under the flips are the other way round. So the operator of the matrix is the operator of the
string, and the two kernels, which share no code, do the same to every register, on operands that
fit and on others.

Key theorems: `toComplex_tensorEntry`, `blockOperator_tensor`, `operator_matrix_pauli`,
`operator_matrix_rotation`, `pauli_kernels_agree`.
-/
import Mathlib
import GateCircuit.Gate.Kind
import GateCircuit.Proofs.Kernels

namespace GateCircuit

/-! ### Rows and columns -/

theorem row_add_lt {dim row col : ℕ} (hrow : row < dim) (hcol : col < dim) :
    row * dim + col < dim * dim := by
  calc row * dim + col < (row + 1) * dim := by
        rw [Nat.succ_mul]
        omega
    _ ≤ dim * dim := Nat.mul_le_mul_right _ hrow

theorem div_mod_row {dim col : ℕ} (row : ℕ) (hcol : col < dim) :
    (row * dim + col) / dim = row ∧ (row * dim + col) % dim = col := by
  have hpos : 0 < dim := by omega
  rw [Nat.mul_comm, Nat.mul_add_div hpos, Nat.mul_add_mod, Nat.div_eq_of_lt hcol,
    Nat.mod_eq_of_lt hcol, Nat.add_zero]
  exact ⟨rfl, rfl⟩

/-! ### Entries -/

/-- The entry of a Pauli operator in a row and a column, by the state of its qubit. -/
theorem toComplex_pauliMatrix (p : Pauli) (row col : Bool) :
    (p.matrix.getD (row.toNat * 2 + col.toNat) 0 : Amplitude ℝ).toComplex =
      if col = (row ^^ p.flips) then p.factor col else 0 := by
  cases p <;> cases row <;> cases col <;> simp [Pauli.matrix, Pauli.flips, Pauli.factor]

/-- A column of a string whose entry in row `b` is not zero. -/
def Meets (string : List (Qubit × Pauli)) (b c : ℕ) : Prop :=
  ∀ a ∈ string, c.testBit a.1 = (b.testBit a.1 ^^ a.2.flips)

instance (string : List (Qubit × Pauli)) (b c : ℕ) : Decidable (Meets string b c) := by
  unfold Meets
  infer_instance

theorem gather_cons_mod (q : Qubit) (qs : List Qubit) (b : ℕ) :
    gather (q :: qs) b % 2 = (b.testBit q).toNat := by
  have hb : (b.testBit q).toNat ≤ 1 := Bool.toNat_le _
  rw [gather]
  omega

theorem gather_cons_div (q : Qubit) (qs : List Qubit) (b : ℕ) :
    gather (q :: qs) b / 2 = gather qs b := by
  have hb : (b.testBit q).toNat ≤ 1 := Bool.toNat_le _
  rw [gather]
  omega

/-- An entry of a tensor product: the factor of the string, or zero. That the product stops at a
zero makes no difference. -/
theorem toComplex_tensorEntry (b c : ℕ) : ∀ (ts : List Qubit) (ps : List Pauli)
    (entry : Amplitude ℝ), ts.length = ps.length →
    (tensorEntry ps (gather ts b) (gather ts c) entry).toComplex =
      entry.toComplex * if Meets (ts.zip ps) b c then stringFactor (ts.zip ps) c else 0
  | [], [], entry, _ => by simp [tensorEntry, Meets, stringFactor]
  | q :: ts, p :: ps, entry, hlen => by
    have hlen : ts.length = ps.length := by simpa using hlen
    have hmeets : Meets ((q, p) :: ts.zip ps) b c ↔
        c.testBit q = (b.testBit q ^^ p.flips) ∧ Meets (ts.zip ps) b c := List.forall_mem_cons
    have hproduct : (entry * p.matrix.getD
        (gather (q :: ts) b % 2 * 2 + gather (q :: ts) c % 2) 0).toComplex =
        entry.toComplex *
          if c.testBit q = (b.testBit q ^^ p.flips) then p.factor (c.testBit q) else 0 := by
      rw [Amplitude.toComplex_mul, gather_cons_mod, gather_cons_mod, toComplex_pauliMatrix]
    rw [tensorEntry, List.zip_cons_cons, stringFactor]
    simp only [hmeets]
    split
    · -- the product is zero, and remains so
      rename_i hzero
      rw [Amplitude.isZero_iff, hproduct] at hzero
      rw [hproduct, hzero]
      by_cases hq : c.testBit q = (b.testBit q ^^ p.flips)
      · rw [if_pos hq] at hzero
        by_cases hrest : Meets (ts.zip ps) b c
        · rw [if_pos ⟨hq, hrest⟩, ← mul_assoc, hzero, zero_mul]
        · rw [if_neg (fun h => hrest h.2), mul_zero]
      · rw [if_neg (fun h => hq h.1), mul_zero]
    · rw [gather_cons_div, gather_cons_div, toComplex_tensorEntry b c ts ps _ hlen, hproduct]
      by_cases hq : c.testBit q = (b.testBit q ^^ p.flips)
      · simp [hq, mul_assoc]
      · simp [hq]

/-- Undoing the flips stays in the block. -/
theorem replaced_gather_flips {ts : List Qubit} (hts : ts.Nodup) (ps : List Pauli) (b : ℕ) :
    replaced ts b (gather ts (b ^^^ flipMask (ts.zip ps))) = b ^^^ flipMask (ts.zip ps) := by
  refine (eq_replaced hts fun i hi => ?_).symm
  have : (flipMask (ts.zip ps)).testBit i = false :=
    testBit_flipMask_of_notMem fun a ha h => hi (h ▸ (List.of_mem_zip ha).1)
  rw [Nat.testBit_xor, this, Bool.xor_false]

/-- In the block of `b`, only the column with the flips undone meets the row of `b`. -/
theorem meets_replaced_iff {ts : List Qubit} {ps : List Pauli} (hts : ts.Nodup)
    (hlen : ts.length = ps.length) (b : ℕ) {m : ℕ} (hm : m < 2 ^ ts.length) :
    Meets (ts.zip ps) b (replaced ts b m) ↔ m = gather ts (b ^^^ flipMask (ts.zip ps)) := by
  have hfst : (ts.zip ps).map Prod.fst = ts := List.map_fst_zip hlen.le
  have hbit := testBit_flipMask_of_mem (hfst.symm ▸ hts)
  constructor
  · intro h
    have hgather : gather ts (replaced ts b m) = gather ts (b ^^^ flipMask (ts.zip ps)) := by
      refine gather_congr ts fun q hq => ?_
      rw [← hfst] at hq
      obtain ⟨a, ha, rfl⟩ := List.mem_map.mp hq
      rw [h a ha, Nat.testBit_xor, hbit a ha]
    rwa [gather_replaced b hts hm] at hgather
  · rintro rfl a ha
    rw [replaced_gather_flips hts, Nat.testBit_xor, hbit a ha]

/-! ### Operators -/

section Operators

variable {ts : List Qubit} {ps : List Pauli}

/-- The matrix of a string, entry by entry. -/
theorem tensor_eq_ok {R : Type} [Scalar R] (hmax : ps.length ≤ maxMatrixQubits) :
    ∃ entries : Array (Amplitude R),
      tensor ps = .ok entries ∧ entries.size = 2 ^ ps.length * 2 ^ ps.length ∧
        ∀ row < 2 ^ ps.length, ∀ col < 2 ^ ps.length,
          entries.getD (row * 2 ^ ps.length + col) 0 = tensorEntry ps row col 1 := by
  have hwidth : min ps.length maxCount = ps.length := min_eq_left (hmax.trans (by decide))
  refine ⟨_, by rw [tensor, hwidth, if_neg (Nat.not_lt.mpr hmax)], ?_, fun row hrow col hcol => ?_⟩
  · rw [Array.size_map, Array.size_range, dimension_eq]
  · have hlt := row_add_lt hrow hcol
    obtain ⟨hdiv, hmod⟩ := div_mod_row row hcol
    simp [dimension_eq, hlt, hdiv, hmod]

/-- **A string and its matrix have the same operator.** -/
theorem blockOperator_tensor (hts : ts.Nodup) (hlen : ts.length = ps.length)
    {entry : ℕ → ℕ → ℂ} (hentry : ∀ row < 2 ^ ts.length, ∀ col < 2 ^ ts.length,
      entry row col = (tensorEntry ps row col (1 : Amplitude ℝ)).toComplex) :
    blockOperator ts (2 ^ ts.length) entry = stringOperator (ts.zip ps) := by
  refine LinearMap.ext fun ψ => funext fun b => ?_
  set partner := b ^^^ flipMask (ts.zip ps) with hpartner
  have hm := gather_lt partner ts
  have hmeets := (meets_replaced_iff hts hlen b hm).mpr rfl
  rw [blockOperator_apply, if_pos (gather_lt b ts), stringOperator_apply, ← hpartner,
    Finset.sum_eq_single (gather ts partner)]
  · -- the one column that counts
    rw [hpartner, replaced_gather_flips hts ps b, ← hpartner] at hmeets ⊢
    rw [hentry _ (gather_lt b ts) _ hm, toComplex_tensorEntry b partner ts ps 1 hlen,
      if_pos hmeets, Amplitude.toComplex_one, one_mul]
  · intro m hmem hne
    have hm' : m < 2 ^ ts.length := Finset.mem_range.mp hmem
    have hno : ¬ Meets (ts.zip ps) b (replaced ts b m) := fun h =>
      hne ((meets_replaced_iff hts hlen b hm').mp h)
    have h := toComplex_tensorEntry b (replaced ts b m) ts ps 1 hlen
    rw [gather_replaced b hts hm', if_neg hno, mul_zero] at h
    rw [hentry _ (gather_lt b ts) _ hm', h, zero_mul]
  · intro h
    exact absurd (Finset.mem_range.mpr hm) h

/-- A matrix plus a multiple of the identity. -/
theorem blockOperator_mix (hts : ts.Nodup) {entry entry' : ℕ → ℕ → ℂ} {stay flip : ℂ}
    (hentry : ∀ row < 2 ^ ts.length, ∀ col < 2 ^ ts.length,
      entry' row col = (if row = col then stay else 0) + flip * entry row col) :
    blockOperator ts (2 ^ ts.length) entry' =
      stay • LinearMap.id + flip • blockOperator ts (2 ^ ts.length) entry := by
  refine LinearMap.ext fun ψ => funext fun b => ?_
  have hrow := gather_lt b ts
  simp only [LinearMap.add_apply, LinearMap.smul_apply, LinearMap.id_apply, Pi.add_apply,
    Pi.smul_apply, smul_eq_mul, blockOperator_apply, if_pos hrow]
  calc ∑ m ∈ Finset.range (2 ^ ts.length), entry' (gather ts b) m * ψ (replaced ts b m)
      = ∑ m ∈ Finset.range (2 ^ ts.length), ((if gather ts b = m then stay * ψ b else 0) +
          flip * (entry (gather ts b) m * ψ (replaced ts b m))) := by
        refine Finset.sum_congr rfl fun m hm => ?_
        rw [hentry _ hrow _ (Finset.mem_range.mp hm), add_mul, mul_assoc]
        by_cases h : gather ts b = m
        · rw [if_pos h, if_pos h, ← h, replaced_gather b hts]
        · rw [if_neg h, if_neg h, zero_mul]
    _ = stay * ψ b + flip *
          ∑ m ∈ Finset.range (2 ^ ts.length), entry (gather ts b) m * ψ (replaced ts b m) := by
        rw [Finset.sum_add_distrib, Finset.sum_ite_eq, if_pos (Finset.mem_range.mpr hrow),
          Finset.mul_sum]

/-- The matrix of a rotation, entry by entry. -/
theorem toComplex_rotationMatrix {entries : Array (Amplitude ℝ)} {dim row col : ℕ} (angle : ℝ)
    (hcol : col < dim) (hlt : row * dim + col < entries.size) :
    ((rotationMatrix dim angle entries).getD (row * dim + col) 0).toComplex =
      (if row = col then (Real.cos (angle / 2) : ℂ) else 0) +
        -(Real.sin (angle / 2) * Complex.I) * (entries.getD (row * dim + col) 0).toComplex := by
  obtain ⟨hdiv, hmod⟩ := div_mod_row row hcol
  have hturned : ((⟨0, -Scalar.sin (Scalar.half angle)⟩ : Amplitude ℝ) *
      entries.getD (row * dim + col) 0).toComplex =
      -(Real.sin (angle / 2) * Complex.I) * (entries.getD (row * dim + col) 0).toComplex := by
    rw [Amplitude.toComplex_mul, Amplitude.toComplex_imaginary, scalar_half, ← neg_mul,
      ← Complex.ofReal_neg]
    rfl
  have hentry : (rotationMatrix dim angle entries).getD (row * dim + col) 0 =
      let turned := (⟨0, -Scalar.sin (Scalar.half angle)⟩ : Amplitude ℝ) *
        entries.getD (row * dim + col) 0
      if row = col then ⟨turned.re + Scalar.cos (Scalar.half angle), turned.im⟩ else turned := by
    simp [rotationMatrix, hlt, hdiv, hmod]
  rw [hentry, ← hturned]
  simp only
  split
  · rw [Amplitude.toComplex_addReal, add_comm, scalar_half]
    rfl
  · rw [zero_add]

/-- **The matrix of a string is as good as the string**: the call with it has the same operator. -/
theorem operator_matrix_pauli (hlen : ps.length = ts.length) (hmax : ps.length ≤ maxMatrixQubits) :
    ∃ entries, (GateKind.pauli ps : GateKind ℝ).matrix = .ok entries ∧
      ∀ cs, (KernelCall.matrix ts cs entries).FitSize ∧
        (ts.Nodup → (KernelCall.pauli ts cs ps).operator =
          (KernelCall.matrix ts cs entries).operator) := by
  obtain ⟨entries, hok, hsize, hentry⟩ := tensor_eq_ok (R := ℝ) hmax
  have hmax' : ts.length ≤ 10 := hlen ▸ hmax
  have hdim : blockSize ts.length = 2 ^ ts.length := blockSize_eq (by omega)
  rw [hlen] at hsize hentry
  refine ⟨entries, hok, fun cs => ⟨?_, fun hts => ?_⟩⟩
  · rw [KernelCall.FitSize, hdim, blockEntries_eq (by omega), hsize]
  · rw [KernelCall.operator, KernelCall.operator, hdim, blockOperator_tensor hts hlen.symm]
    intro row hrow col hcol
    rw [hentry row hrow col hcol]

/-- **So is the matrix of a rotation.** -/
theorem operator_matrix_rotation (hlen : ps.length = ts.length)
    (hmax : ps.length ≤ maxMatrixQubits) (angle : ℝ) :
    ∃ entries, (GateKind.rotation ps angle).matrix = .ok entries ∧
      ∀ cs, (KernelCall.matrix ts cs entries).FitSize ∧
        (ts.Nodup → (KernelCall.rotation ts cs ps angle).operator =
          (KernelCall.matrix ts cs entries).operator) := by
  obtain ⟨product, hok, hsize, hentry⟩ := tensor_eq_ok (R := ℝ) hmax
  have hmax' : ts.length ≤ 10 := hlen ▸ hmax
  have hdim : blockSize ts.length = 2 ^ ts.length := blockSize_eq (by omega)
  rw [hlen] at hsize hentry
  refine ⟨rotationMatrix (2 ^ ts.length) angle product, ?_, fun cs => ⟨?_, fun hts => ?_⟩⟩
  · rw [GateKind.matrix, hok, hlen, dimension_eq]
    rfl
  · rw [KernelCall.FitSize, hdim, blockEntries_eq (by omega), rotationMatrix, Array.size_mapIdx,
      hsize]
  · rw [KernelCall.operator, KernelCall.operator, hdim, mixOperator,
      ← blockOperator_tensor hts hlen.symm fun row hrow col hcol => rfl]
    congr 1
    refine (blockOperator_mix hts fun row hrow col hcol => ?_).symm
    have hlt : row * 2 ^ ts.length + col < product.size := hsize ▸ row_add_lt hrow hcol
    rw [toComplex_rotationMatrix angle hcol hlt, hentry row hrow col hcol]

end Operators

/-! ### The kernels agree -/

/-- **The Pauli kernels agree with the matrix kernel.** On every register, a Pauli string and a
rotation about one come to the same end as a call with the matrix of their gate: the same register
on operands that fit, and otherwise the same complaint about an operand, with the register as it
was. -/
theorem pauli_kernels_agree {s : StateVector ℝ} (hs : s.WellFormed) (ts cs : List Qubit)
    (ps : List Pauli) (angle : ℝ) (hlen : ps.length = ts.length)
    (hmax : ps.length ≤ maxMatrixQubits) :
    (∃ entries, (GateKind.pauli ps : GateKind ℝ).matrix = .ok entries ∧
      QuantumState.perform (.pauli ts cs ps) s = QuantumState.perform (.matrix ts cs entries) s) ∧
    (∃ entries, (GateKind.rotation ps angle).matrix = .ok entries ∧
      QuantumState.perform (.rotation ts cs ps angle) s =
        QuantumState.perform (.matrix ts cs entries) s) ∧
    ∀ call ∈ [KernelCall.pauli ts cs ps, .rotation ts cs ps angle],
      (FitOperands s.qubitCount (ts ++ cs) ∧ ∃ t, QuantumState.perform call s = .ok () t) ∨
      (¬ FitOperands s.qubitCount (ts ++ cs) ∧ ∃ e, QuantumState.perform call s = .error e s ∧
        OperandFault s.qubitCount (ts ++ cs) e) := by
  have hagree : ∀ {call call' : KernelCall ℝ}, s.perform call = s.perform call' →
      QuantumState.perform call s = QuantumState.perform call' s := by
    intro call call' h
    simp only [QuantumState.perform, h]
  have hnodup : (ts ++ cs).Nodup → ts.Nodup := fun h => (List.nodup_append.mp h).1
  refine ⟨?_, ?_, ?_⟩
  · obtain ⟨entries, hok, h⟩ := operator_matrix_pauli hlen hmax
    refine ⟨entries, hok, hagree (StateVector.perform_congr hs rfl rfl hlen.symm (h cs).1 ?_)⟩
    exact fun hnd => (h cs).2 (hnodup hnd)
  · obtain ⟨entries, hok, h⟩ := operator_matrix_rotation hlen hmax angle
    refine ⟨entries, hok, hagree (StateVector.perform_congr hs rfl rfl hlen.symm (h cs).1 ?_)⟩
    exact fun hnd => (h cs).2 (hnodup hnd)
  · have houtcome : ∀ call : KernelCall ℝ, call.targets = ts → call.controls = cs → call.FitSize →
        (FitOperands s.qubitCount (ts ++ cs) ∧ ∃ t, QuantumState.perform call s = .ok () t) ∨
        (¬ FitOperands s.qubitCount (ts ++ cs) ∧ ∃ e, QuantumState.perform call s = .error e s ∧
          OperandFault s.qubitCount (ts ++ cs) e) := by
      rintro call rfl rfl hsize
      rcases StateVector.perform_outcome hs hsize with ⟨hfit, t, ht, -⟩ | hfault
      · exact .inl ⟨hfit, t, ht⟩
      · exact .inr hfault
    intro call hcall
    rw [List.mem_pair] at hcall
    rcases hcall with rfl | rfl
    · exact houtcome _ rfl rfl hlen.symm
    · exact houtcome _ rfl rfl hlen.symm

/-- A string on two of three qubits, conditioned on the third. -/
theorem pauli_kernels_agree_controlled :
    (basisState 3 5 : StateVector ℝ).WellFormed ∧ [Pauli.Y, .X].length = [1, 0].length ∧
      [Pauli.Y, .X].length ≤ maxMatrixQubits ∧
      ∃ entries, (GateKind.rotation [.Y, .X] (Real.pi / 3)).matrix = .ok entries ∧
        QuantumState.perform (.rotation [1, 0] [2] [.Y, .X] (Real.pi / 3))
            (basisState 3 5 : StateVector ℝ) =
          QuantumState.perform (.matrix [1, 0] [2] entries) (basisState 3 5) :=
  have hs := StateVector.wellFormed_basisState 3 5
  ⟨hs, rfl, by decide,
    (pauli_kernels_agree hs [1, 0] [2] [.Y, .X] (Real.pi / 3) rfl (by decide)).2.1⟩

end GateCircuit
