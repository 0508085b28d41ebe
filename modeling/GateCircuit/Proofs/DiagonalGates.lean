/-
# Gates that say they are diagonal

A gate says whether it is diagonal: a named gate by a list of names, a Pauli string or a rotation by a look
at its operators, a dense gate by a look at the entries off the diagonal of its matrix. What the gate does
bears it out. A diagonal gate other than a dense one multiplies each amplitude by a number that depends on
the index and not on the register, so two of them commute. The entries off the diagonal of a dense one may
be rounding noise: each is at most the tolerance, and so is the share that an amplitude gets from each of
the others in its block. A Pauli string that says it is not diagonal flips a bit.

Key definitions: `ScalesBy`.
Key theorems: `ScalesBy.comp_comm`, `norm_blockOperator_sub_le`, `flipMask_eq_zero_iff`,
`Gate.FactoryBuilt.scales`, `diagonal_flag_sound`.
-/
import Mathlib
import GateCircuit.Proofs.DiagonalEvolution
import GateCircuit.Proofs.PauliAlgebra

namespace GateCircuit

open Outcome

/-! ### Operators that scale amplitudes -/

/-- The operator multiplies the amplitude of each index by a number. -/
def ScalesBy (A : Operator) (d : ℕ → ℂ) : Prop := ∀ ψ b, A ψ b = d b * ψ b

section Scaling

variable {A B : Operator} {d e : ℕ → ℂ}

theorem scalesBy_id : ScalesBy LinearMap.id fun _ => 1 := fun ψ b => (one_mul (ψ b)).symm

theorem ScalesBy.smul (h : ScalesBy A d) (a : ℂ) : ScalesBy (a • A) fun b => a * d b := by
  intro ψ b
  rw [LinearMap.smul_apply, Pi.smul_apply, smul_eq_mul, h ψ b, mul_assoc]

theorem ScalesBy.add (h : ScalesBy A d) (h' : ScalesBy B e) : ScalesBy (A + B) fun b => d b + e b := by
  intro ψ b
  rw [LinearMap.add_apply, Pi.add_apply, h ψ b, h' ψ b, add_mul]

theorem ScalesBy.underControls (h : ScalesBy A d) (cs : List Qubit) :
    ScalesBy (controlled cs A) fun b => if AllSet cs b then d b else 1 := by
  intro ψ b
  by_cases hset : AllSet cs b
  · simp only [controlled_apply, if_pos hset, h ψ b]
  · simp only [controlled_apply, if_neg hset, one_mul]

/-- Operators that scale amplitudes can be exchanged. -/
theorem ScalesBy.comp_comm (h : ScalesBy A d) (h' : ScalesBy B e) : A ∘ₗ B = B ∘ₗ A := by
  refine LinearMap.ext fun ψ => funext fun b => ?_
  rw [LinearMap.comp_apply, LinearMap.comp_apply, h, h', h', h, mul_left_comm]

end Scaling

/-! ### Matrices that are nearly diagonal -/

section Matrices

variable {ts : List Qubit} {entry : ℕ → ℕ → ℂ}

/-- Entries off the diagonal that are small move an amplitude by little: by no more than their bound for
each of the other amplitudes in its block. -/
theorem norm_blockOperator_sub_le (hts : ts.Nodup) {bound : ℝ}
    (h : ∀ row < 2 ^ ts.length, ∀ col < 2 ^ ts.length, row ≠ col → ‖entry row col‖ ≤ bound)
    (ψ : ℕ → ℂ) (b : ℕ) :
    ‖blockOperator ts (2 ^ ts.length) entry ψ b - entry (gather ts b) (gather ts b) * ψ b‖ ≤
      bound * ∑ m ∈ (Finset.range (2 ^ ts.length)).erase (gather ts b), ‖ψ (replaced ts b m)‖ := by
  have hrow := gather_lt b ts
  have hrest : blockOperator ts (2 ^ ts.length) entry ψ b -
      entry (gather ts b) (gather ts b) * ψ b =
        ∑ m ∈ (Finset.range (2 ^ ts.length)).erase (gather ts b),
          entry (gather ts b) m * ψ (replaced ts b m) := by
    rw [blockOperator_apply, if_pos hrow, ← Finset.add_sum_erase _ _ (Finset.mem_range.mpr hrow),
      replaced_gather b hts, add_sub_cancel_left]
  rw [hrest, Finset.mul_sum]
  refine (norm_sum_le _ _).trans (Finset.sum_le_sum fun m hm => ?_)
  obtain ⟨hne, hlt⟩ := Finset.mem_erase.mp hm
  have hentry := h _ hrow m (Finset.mem_range.mp hlt) hne.symm
  rw [norm_mul]
  exact mul_le_mul_of_nonneg_right hentry (norm_nonneg _)

/-- Without entries off the diagonal a matrix scales each amplitude by the entry of its row. -/
theorem scalesBy_blockOperator (hts : ts.Nodup)
    (h : ∀ row < 2 ^ ts.length, ∀ col < 2 ^ ts.length, row ≠ col → entry row col = 0) :
    ScalesBy (blockOperator ts (2 ^ ts.length) entry)
      fun b => entry (gather ts b) (gather ts b) := by
  intro ψ b
  have hsmall : ∀ row < 2 ^ ts.length, ∀ col < 2 ^ ts.length, row ≠ col → ‖entry row col‖ ≤ 0 :=
    fun row hrow col hcol hne => (norm_eq_zero.mpr (h row hrow col hcol hne)).le
  have hnear := norm_blockOperator_sub_le hts hsmall ψ b
  rw [zero_mul, norm_le_zero_iff, sub_eq_zero] at hnear
  exact hnear

end Matrices

/-! ### Strings without flips -/

section Strings

variable {string : List (Qubit × Pauli)}

theorem scalesBy_string (h : flipMask string = 0) :
    ScalesBy (stringOperator string) (stringFactor string) := by
  intro ψ b
  rw [stringOperator_apply, h, Nat.xor_zero]

theorem scalesBy_mixOperator (h : flipMask string = 0) (stay flip : ℂ) :
    ScalesBy (mixOperator string stay flip) fun b => stay * 1 + flip * stringFactor string b :=
  (scalesBy_id.smul stay).add ((scalesBy_string h).smul flip)

/-- On distinct qubits a string flips nothing exactly if all of its operators are diagonal. -/
theorem flipMask_eq_zero_iff {ts : List Qubit} {ps : List Pauli} (hts : ts.Nodup)
    (hlen : ts.length = ps.length) :
    flipMask (ts.zip ps) = 0 ↔ ps.all Pauli.isDiagonal = true := by
  have hdiagonal : ∀ p : Pauli, p.isDiagonal = true ↔ p = .I ∨ p = .Z := fun p => by
    cases p <;> decide
  have hflips : ∀ p : Pauli, p.isDiagonal = !p.flips := fun p => by cases p <;> rfl
  have hfst : ((ts.zip ps).map Prod.fst).Nodup := by rwa [List.map_fst_zip hlen.le]
  have hsnd : (ts.zip ps).map Prod.snd = ps := List.map_snd_zip hlen.ge
  rw [List.all_eq_true]
  constructor
  · intro h p hp
    rw [← hsnd] at hp
    obtain ⟨a, ha, rfl⟩ := List.mem_map.mp hp
    have hbit := testBit_flipMask_of_mem hfst a ha
    rw [h, Nat.zero_testBit] at hbit
    rw [hflips, ← hbit]
    rfl
  · intro h
    exact flipMask_diagonal fun a ha => (hdiagonal a.2).mp (h a.2 (List.of_mem_zip ha).2)

/-- A string sends a basis state on with a factor of length one. -/
theorem norm_stringFactor (string : List (Qubit × Pauli)) (b : ℕ) : ‖stringFactor string b‖ = 1 := by
  have hone := stringFactor_mul_conj b string
  rw [Complex.mul_conj, Complex.ofReal_eq_one, Complex.normSq_eq_norm_sq] at hone
  exact (pow_eq_one_iff_of_nonneg (norm_nonneg _) two_ne_zero).mp hone

/-- A basis state goes to its partner. -/
theorem stringOperator_single (b : ℕ) :
    stringOperator string (Pi.single b 1) =
      stringFactor string b • (Pi.single (b ^^^ flipMask string) 1 : ℕ → ℂ) := by
  funext c
  rw [stringOperator_apply, Pi.smul_apply, Pi.single_apply, Pi.single_apply, smul_eq_mul]
  by_cases hc : c ^^^ flipMask string = b
  · have hback : c = b ^^^ flipMask string := by rw [← hc, Nat.xor_xor_cancel_right]
    rw [if_pos hc, if_pos hback, hc]
  · have hback : c ≠ b ^^^ flipMask string := by
      rintro rfl
      exact hc (Nat.xor_xor_cancel_right _ _)
    rw [if_neg hc, if_neg hback, mul_zero, mul_zero]

end Strings

/-! ### The flag of a gate -/

/-- A register whose amplitudes can be counted in a word has fewer than 64 qubits. -/
theorem lt_of_dimension_le_maxWord {n : ℕ} (h : dimension n ≤ maxWord) : n < 64 := by
  rw [dimension_eq] at h
  by_contra hn
  have hlarge : 2 ^ 64 ≤ 2 ^ n := Nat.pow_le_pow_right (by decide) (Nat.le_of_not_lt hn)
  have hword : maxWord < 2 ^ 64 := by decide
  omega

/-- The absolute value of an exact amplitude. -/
theorem Amplitude.norm_toComplex (a : Amplitude ℝ) : ‖a.toComplex‖ = a.norm := by
  rw [Complex.norm_def]
  rfl

/-- The one-qubit gates on the list of diagonal ones have zeros off the diagonal. -/
theorem OneQubitGate.offDiagonal {R : Type} [Scalar R] {gate : OneQubitGate R}
    (h : gate.isDiagonal = true) : gate.matrix.getD 1 0 = 0 ∧ gate.matrix.getD 2 0 = 0 := by
  cases gate with
  | id | z | s | sdg | t | tdg | p0 | p1 | rz | u1 => exact ⟨rfl, rfl⟩
  | _ => cases h

/-- So have all named gates that say they are diagonal; none of them acts on more than one target. -/
theorem NamedGate.offDiagonal {R : Type} [Scalar R] {gate : NamedGate R}
    (h : gate.isDiagonal = true) :
    gate.targetCount = 1 ∧ gate.matrix.getD 1 0 = 0 ∧ gate.matrix.getD 2 0 = 0 := by
  cases gate with
  | single gate => exact ⟨rfl, OneQubitGate.offDiagonal h⟩
  | cz => exact ⟨rfl, rfl, rfl⟩
  | cx => cases h
  | swap => cases h

/-- A matrix on one target that has zeros off the diagonal scales amplitudes. -/
theorem scales_matrix_single (q : Qubit) (cs : List Qubit) {entries : Array (Amplitude ℝ)}
    (h : entries.getD 1 0 = 0 ∧ entries.getD 2 0 = 0) :
    ∃ d, ScalesBy (KernelCall.matrix [q] cs entries).operator d := by
  have hzero : ∀ row < 2 ^ [q].length, ∀ col < 2 ^ [q].length, row ≠ col →
      (entries.getD (row * blockSize [q].length + col) 0).toComplex = 0 := by
    intro row hrow col hcol hne
    have htwo : 2 ^ [q].length = 2 := rfl
    rw [htwo] at hrow hcol
    obtain ⟨rfl, rfl⟩ | ⟨rfl, rfl⟩ : (row = 0 ∧ col = 1) ∨ (row = 1 ∧ col = 0) := by omega
    · exact congrArg Amplitude.toComplex h.1
    · exact congrArg Amplitude.toComplex h.2
  exact ⟨_, (scalesBy_blockOperator (List.nodup_singleton q) hzero).underControls cs⟩

namespace Gate

/-- The scan over a matrix finds every entry off the diagonal that is larger than the tolerance. -/
theorem norm_le_of_isDiagonalMatrix {dim : ℕ} {entries : Array (Amplitude ℝ)}
    (h : isDiagonalMatrix dim entries = true) (hsize : entries.size = dim * dim) {row col : ℕ}
    (hrow : row < dim) (hcol : col < dim) (hne : row ≠ col) :
    ‖(entries.getD (row * dim + col) 0).toComplex‖ ≤ 1 / 10 ^ 12 := by
  obtain ⟨hdiv, hmod⟩ := div_mod_row row hcol
  have hentry := List.all_eq_true.mp h (row * dim + col)
    (List.mem_range.mpr (hsize ▸ row_add_lt hrow hcol))
  rw [hdiv, hmod, Bool.or_eq_true, beq_iff_eq] at hentry
  rw [Amplitude.norm_toComplex]
  exact of_decide_eq_true (hentry.resolve_left hne)

/-- The gate says that it is diagonal, and it is not a dense gate, which may be so up to noise only. -/
structure ExactlyDiagonal (g : Gate ℝ) : Prop where
  flag : g.isDiagonal = true
  notDense : ∀ entries, g.kind ≠ .dense entries

variable {g : Gate ℝ}

/-- **What an exactly diagonal gate does**: it scales amplitudes. -/
theorem FactoryBuilt.scales (hg : g.FactoryBuilt) (h : g.ExactlyDiagonal) :
    ∃ d, ScalesBy g.kernel.operator d := by
  have hts := hg.targets_nodup
  have hdiagonal := h.flag
  unfold isDiagonal at hdiagonal
  cases hg.calls with
  | named hkind hlen hkernel =>
    rw [hkind] at hdiagonal
    obtain ⟨hcount, hzeros⟩ := NamedGate.offDiagonal hdiagonal
    obtain ⟨q, hq⟩ := List.length_eq_one_iff.mp (hlen.trans hcount)
    rw [hkernel, hq]
    exact scales_matrix_single q g.controls hzeros
  | pauli hkind hlen hkernel =>
    rw [hkind] at hdiagonal
    have hflips := (flipMask_eq_zero_iff hts hlen).mpr hdiagonal
    rw [hkernel, KernelCall.operator]
    exact ⟨_, (scalesBy_string hflips).underControls g.controls⟩
  | rotation hkind hlen hkernel =>
    rw [hkind] at hdiagonal
    have hflips := (flipMask_eq_zero_iff hts hlen).mpr hdiagonal
    rw [hkernel, KernelCall.operator]
    exact ⟨_, (scalesBy_mixOperator hflips _ _).underControls g.controls⟩
  | dense hkind => exact absurd hkind (h.notDense _)

/-- **What a dense gate does** that says it is diagonal: up to the noise in its matrix, it scales
amplitudes. -/
theorem FactoryBuilt.nearly_scales (hg : g.FactoryBuilt) (hdiagonal : g.isDiagonal = true)
    {entries : Array (Amplitude ℝ)} (hkind : g.kind = .dense entries) (hword : g.targets.length < 64)
    (ψ : ℕ → ℂ) (b : ℕ) :
    let k := g.targets.length
    let r := gather g.targets b
    ‖g.kernel.operator ψ b - (entries.getD (r * 2 ^ k + r) 0).toComplex * ψ b‖ ≤
      1 / 10 ^ 12 * ∑ m ∈ (Finset.range (2 ^ k)).erase r, ‖ψ (replaced g.targets b m)‖ := by
  intro k r
  obtain ⟨hchecked, -⟩ := hg.checked
  have hts := hg.targets_nodup
  have hcontrols : g.controls = [] := hg.controls_eq_nil (by rw [hkind]; rfl)
  have hblock : blockSize k = 2 ^ k := blockSize_eq hword
  have hsize : entries.size = 2 ^ k * 2 ^ k := by
    rw [hkind] at hchecked
    have hcounted : entries.size = matrixSize k := check_eq_ok.mp hchecked
    rw [hcounted, (matrixSize_square (hcounted ▸ hg.inMemory entries hkind)).2, hblock]
  have hscan : isDiagonalMatrix (2 ^ k) entries = true := by
    unfold isDiagonal at hdiagonal
    rw [hkind] at hdiagonal
    rwa [← dimension_eq]
  have hoperator : g.kernel.operator = blockOperator g.targets (2 ^ k)
      fun row col => (entries.getD (row * 2 ^ k + col) 0).toComplex := by
    rw [kernel, hkind, hcontrols, KernelCall.operator, controlled_nil, hblock]
  rw [hoperator]
  exact norm_blockOperator_sub_le hts
    (fun row hrow col hcol hne => norm_le_of_isDiagonalMatrix hscan hsize hrow hcol hne) ψ b

/-- **What a string does** that says it is not diagonal: it sends each basis state to a multiple of
another one. -/
theorem FactoryBuilt.moves (hg : g.FactoryBuilt) (hdiagonal : g.isDiagonal = false) {ps : List Pauli}
    (hkind : g.kind = .pauli ps) {n b : ℕ} (hin : ∀ q ∈ QuantumGate.operands g, q < n)
    (hb : b < 2 ^ n) :
    ∃ (a : ℂ) (b' : ℕ), ‖a‖ = 1 ∧ b' < 2 ^ n ∧ b' ≠ b ∧
      g.kernel.operator (Pi.single b 1) = a • (Pi.single b' 1 : ℕ → ℂ) := by
  obtain ⟨hchecked, -⟩ := hg.checked
  have hts := hg.targets_nodup
  have hlen : g.targets.length = ps.length := by
    rw [hkind] at hchecked
    exact check_eq_ok.mp hchecked
  have hcontrols : g.controls = [] := hg.controls_eq_nil (by rw [hkind]; rfl)
  have hflips : flipMask (g.targets.zip ps) ≠ 0 := by
    rw [Ne, flipMask_eq_zero_iff hts hlen]
    unfold isDiagonal at hdiagonal
    rw [hkind] at hdiagonal
    exact Bool.eq_false_iff.mp hdiagonal
  have hinside : flipMask (g.targets.zip ps) < 2 ^ n := flipMask_lt fun a ha =>
    hin a.1 (List.mem_append_left _ (List.of_mem_zip ha).1)
  refine ⟨_, b ^^^ flipMask (g.targets.zip ps), norm_stringFactor (g.targets.zip ps) b,
    Nat.xor_lt_two_pow hb hinside, fun hsame => hflips ?_, ?_⟩
  · have hback := congrArg (b ^^^ ·) hsame
    simpa [← Nat.xor_assoc] using hback
  · rw [kernel, hkind, hcontrols, KernelCall.operator, controlled_nil, stringOperator_single]

/-- The call of a built gate does to a register what its operator says. -/
theorem FactoryBuilt.apply_becomes (hg : g.FactoryBuilt) {s : StateVector ℝ} (hs : s.WellFormed)
    (hin : ∀ q ∈ QuantumGate.operands g, q < s.qubitCount) :
    ∃ t, QuantumGate.apply g s = .ok () t ∧ s.Becomes g.kernel.operator t := by
  obtain ⟨t, ht, hbecomes⟩ := StateVector.perform_becomes hs (hg.kernel_fits hin)
  refine ⟨t, ?_, hbecomes⟩
  rw [apply_eq_perform]
  simp only [QuantumState.perform, ht]

/-- **Exactly diagonal gates commute** on every register that is wide enough for both. -/
theorem FactoryBuilt.exchange (hg : g.FactoryBuilt) (h : g.ExactlyDiagonal) {g' : Gate ℝ}
    (hg' : g'.FactoryBuilt) (h' : g'.ExactlyDiagonal) {s : StateVector ℝ} (hs : s.WellFormed)
    (hin : ∀ q ∈ QuantumGate.operands g, q < s.qubitCount)
    (hin' : ∀ q ∈ QuantumGate.operands g', q < s.qubitCount) :
    ∃ t, applyAll [g, g'] s = .ok () t ∧ applyAll [g', g] s = .ok () t := by
  obtain ⟨d, hd⟩ := hg.scales h
  obtain ⟨d', hd'⟩ := hg'.scales h'
  have hpair : ∀ a ∈ [g, g'], a.kernel.Fits s.qubitCount := by
    simp [hg.kernel_fits hin, hg'.kernel_fits hin']
  have hpair' : ∀ a ∈ [g', g], a.kernel.Fits s.qubitCount := by
    simp [hg.kernel_fits hin, hg'.kernel_fits hin']
  obtain ⟨t, ht, hbecomes⟩ := applyAll_becomes hs hpair
  obtain ⟨t', ht', hbecomes'⟩ := applyAll_becomes hs hpair'
  have hsame : gatesOperator [g, g'] = gatesOperator [g', g] := by
    simp only [gatesOperator, LinearMap.id_comp]
    exact hd'.comp_comm hd
  rw [← hsame] at hbecomes'
  exact ⟨t, ht, hbecomes.unique hbecomes' ▸ ht'⟩

end Gate

/-! ### What the flag promises -/

/-- **The flag of a built gate is sound.** If the gate is exactly diagonal then there are numbers, one for
each basis index and the same for all registers, by which it multiplies the amplitudes of every register
that its operands lie in; two such gates commute on every register. If a dense gate says it is diagonal then
on every register, whose amplitudes can be counted in a word, the new amplitude of an index and the old
one, times the entry on the diagonal in the row that the targets spell there, differ by at most the
tolerance times the sum of the absolute values in the rest of the block. A Pauli string that says it is
not diagonal sends every basis state to a multiple of another one. -/
theorem diagonal_flag_sound {g : Gate ℝ} (hg : g.FactoryBuilt) :
    (g.ExactlyDiagonal →
      (∃ d : ℕ → ℂ, ∀ s : StateVector ℝ, s.WellFormed →
        (∀ q ∈ QuantumGate.operands g, q < s.qubitCount) →
        ∃ t, QuantumGate.apply g s = .ok () t ∧ t.WellFormed ∧ t.qubitCount = s.qubitCount ∧
          ∀ b, t.amp b = d b * s.amp b) ∧
      ∀ g' : Gate ℝ, g'.FactoryBuilt → g'.ExactlyDiagonal → ∀ s : StateVector ℝ, s.WellFormed →
        (∀ q ∈ QuantumGate.operands g, q < s.qubitCount) →
        (∀ q ∈ QuantumGate.operands g', q < s.qubitCount) →
        ∃ t, applyAll [g, g'] s = .ok () t ∧ applyAll [g', g] s = .ok () t) ∧
    (∀ entries, g.kind = .dense entries → g.isDiagonal = true → ∀ s : StateVector ℝ, s.WellFormed →
      s.amplitudes.size ≤ maxWord → (∀ q ∈ QuantumGate.operands g, q < s.qubitCount) →
      ∃ t, QuantumGate.apply g s = .ok () t ∧ t.WellFormed ∧ t.qubitCount = s.qubitCount ∧
        ∀ b, let k := g.targets.length
          let r := gather g.targets b
          ‖t.amp b - (entries.getD (r * 2 ^ k + r) 0).toComplex * s.amp b‖ ≤
            1 / 10 ^ 12 * ∑ m ∈ (Finset.range (2 ^ k)).erase r, ‖s.amp (replaced g.targets b m)‖) ∧
    ∀ ps, g.kind = .pauli ps → g.isDiagonal = false → ∀ n b : ℕ,
      (∀ q ∈ QuantumGate.operands g, q < n) → b < 2 ^ n →
      ∃ (t : StateVector ℝ) (a : ℂ) (b' : ℕ), ‖a‖ = 1 ∧ b' < 2 ^ n ∧ b' ≠ b ∧
        QuantumGate.apply g (basisState n b : StateVector ℝ) = .ok () t ∧ t.WellFormed ∧
        t.qubitCount = n ∧ ∀ c, t.amp c = a * (basisState n b' : StateVector ℝ).amp c := by
  refine ⟨fun h => ⟨?_, fun g' hg' h' s hs hin hin' => hg.exchange h hg' h' hs hin hin'⟩, ?_, ?_⟩
  · obtain ⟨d, hd⟩ := hg.scales h
    refine ⟨d, fun s hs hin => ?_⟩
    obtain ⟨t, ht, hbecomes⟩ := hg.apply_becomes hs hin
    refine ⟨t, ht, hbecomes.wellFormed, hbecomes.qubitCount, fun b => ?_⟩
    rw [hbecomes.amp, hd]
  · intro entries hkind hdiagonal s hs hword hin
    obtain ⟨t, ht, hbecomes⟩ := hg.apply_becomes hs hin
    refine ⟨t, ht, hbecomes.wellFormed, hbecomes.qubitCount, fun b => ?_⟩
    have hlength : g.targets.length < 64 := by
      have hfit : FitOperands s.qubitCount (g.targets ++ g.controls) := ⟨hin, hg.checked.2⟩
      have hoperands := hfit.length_le
      have hqubits := lt_of_dimension_le_maxWord (hs.symm.trans_le hword)
      rw [List.length_append] at hoperands
      omega
    rw [hbecomes.amp]
    exact hg.nearly_scales hdiagonal hkind hlength s.amp b
  · intro ps hkind hdiagonal n b hin hb
    obtain ⟨t, ht, hbecomes⟩ := hg.apply_becomes (StateVector.wellFormed_basisState n b) hin
    obtain ⟨a, b', ha, hb', hne, hmoved⟩ := hg.moves hdiagonal hkind hin hb
    refine ⟨t, a, b', ha, hb', hne, ht, hbecomes.wellFormed, hbecomes.qubitCount, fun c => ?_⟩
    rw [hbecomes.amp, StateVector.amp_basisState hb, hmoved, StateVector.amp_basisState hb']
    rfl

/-- A labelled sign on two qubits. -/
def farSign : Gate ℝ := { kind := .named .cz, targets := [0], controls := [2], label := "far" }

/-- A rotation about a string of `Z` and `I`, which overlaps with the sign. -/
noncomputable def diagonalTurn : Gate ℝ :=
  { kind := .rotation [.Z, .I] 1, targets := [2, 1], controls := [] }

/-- A matrix with as much noise off its diagonal as is tolerated. -/
noncomputable def noisyGate : Gate ℝ :=
  { kind := .dense #[1, ⟨Scalar.tolerance, 0⟩, 0, -1], targets := [1], controls := [] }

/-- A string with one operator that flips. -/
def flipString : Gate ℝ := { kind := .pauli [.Z, .X], targets := [1, 2], controls := [] }

theorem farSign_factoryBuilt : farSign.FactoryBuilt :=
  ⟨⟨.cz 2 0, some "far", _, rfl, rfl⟩, by simp [farSign]⟩

theorem diagonalTurn_factoryBuilt : diagonalTurn.FactoryBuilt :=
  ⟨⟨.rotation [2, 1] [.Z, .I] 1, none, _, rfl, rfl⟩, by simp [diagonalTurn]⟩

theorem noisyGate_factoryBuilt : noisyGate.FactoryBuilt := by
  refine ⟨⟨.dense [1] #[1, ⟨Scalar.tolerance, 0⟩, 0, -1], none, _, rfl, rfl⟩, fun entries hkind => ?_⟩
  obtain rfl := GateKind.dense.inj hkind
  show 4 < maxWord
  decide

theorem flipString_factoryBuilt : flipString.FactoryBuilt :=
  ⟨⟨.pauli [1, 2] [.Z, .X], none, _, rfl, rfl⟩, by simp [flipString]⟩

theorem noisyGate_isDiagonal : noisyGate.isDiagonal = true := by
  have htolerance : (Scalar.tolerance : ℝ) = 1 / 10 ^ 12 := rfl
  have hnoise : (⟨Scalar.tolerance, 0⟩ : Amplitude ℝ).norm ≤ 1 / 10 ^ 12 := by
    rw [← Amplitude.norm_toComplex, Amplitude.toComplex_real, Complex.norm_real, htolerance]
    norm_num
  have hzero : (0 : Amplitude ℝ).norm ≤ 1 / 10 ^ 12 := by
    rw [← Amplitude.norm_toComplex, Amplitude.toComplex_zero, norm_zero]
    norm_num
  show Gate.isDiagonalMatrix 2 #[1, ⟨Scalar.tolerance, 0⟩, 0, -1] = true
  rw [Gate.isDiagonalMatrix, List.all_eq_true]
  intro k hk
  have hlt : k < 4 := List.mem_range.mp hk
  interval_cases k
  · rfl
  · exact decide_eq_true hnoise
  · exact decide_eq_true hzero
  · rfl

/-- On three qubits the sign and the rotation change places, the noisy gate runs, and the string moves a basis
state. -/
theorem diagonal_flag_sound_noisy :
    farSign.FactoryBuilt ∧ farSign.ExactlyDiagonal ∧ diagonalTurn.FactoryBuilt ∧
      diagonalTurn.ExactlyDiagonal ∧ noisyGate.FactoryBuilt ∧ noisyGate.isDiagonal = true ∧
      flipString.FactoryBuilt ∧ flipString.isDiagonal = false ∧
      (∃ t : StateVector ℝ,
        applyAll [farSign, diagonalTurn] (basisState 3 5 : StateVector ℝ) = .ok () t ∧
        applyAll [diagonalTurn, farSign] (basisState 3 5 : StateVector ℝ) = .ok () t) ∧
      (∃ t : StateVector ℝ, QuantumGate.apply noisyGate (basisState 3 5 : StateVector ℝ) = .ok () t) ∧
      ∃ (t : StateVector ℝ) (a : ℂ) (b' : ℕ), ‖a‖ = 1 ∧ b' ≠ 5 ∧
        QuantumGate.apply flipString (basisState 3 5 : StateVector ℝ) = .ok () t ∧
        ∀ c, t.amp c = a * (basisState 3 b' : StateVector ℝ).amp c := by
  have hsign : farSign.ExactlyDiagonal := ⟨rfl, by simp [farSign]⟩
  have hturn : diagonalTurn.ExactlyDiagonal := ⟨rfl, by simp [diagonalTurn]⟩
  have hs := StateVector.wellFormed_basisState (R := ℝ) 3 5
  have hword : (basisState 3 5 : StateVector ℝ).amplitudes.size ≤ maxWord := by
    rw [hs]
    show 8 ≤ maxWord
    decide
  obtain ⟨hscales, -, -⟩ := diagonal_flag_sound farSign_factoryBuilt
  obtain ⟨-, hnoise, -⟩ := diagonal_flag_sound noisyGate_factoryBuilt
  obtain ⟨-, -, hmoves⟩ := diagonal_flag_sound flipString_factoryBuilt
  obtain ⟨t, ht, -⟩ := hnoise _ rfl noisyGate_isDiagonal _ hs hword (by decide)
  obtain ⟨u, a, b', ha, -, hne, hu, -, -, hamp⟩ := hmoves _ rfl rfl 3 5 (by decide) (by decide)
  exact ⟨farSign_factoryBuilt, hsign, diagonalTurn_factoryBuilt, hturn, noisyGate_factoryBuilt,
    noisyGate_isDiagonal, flipString_factoryBuilt, rfl,
    (hscales hsign).2 _ diagonalTurn_factoryBuilt hturn _ hs (by decide) (by decide), ⟨t, ht⟩,
    u, a, b', ha, hne, hu, hamp⟩

end GateCircuit
