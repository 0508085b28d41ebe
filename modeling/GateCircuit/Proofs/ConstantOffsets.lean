/-
# Constant offsets

A term of identities adds a constant to a Hamiltonian. Its rotation multiplies every amplitude by one
phase, whatever qubits the term lists, so it commutes with all other rotations. In a circuit lowered in
repeats the rotation stands between others that need not commute, once in each slice; the phases come out
in front of the slices and add up to the phase of the whole angle. So an offset that is put among the
terms of a Hamiltonian, at whatever position, changes the outcome by a global phase and no probability.

Key definitions: `Hamiltonian.insertTerm`, `offsetPhase`.
Key theorems: `turned_identity`, `evolution_insertTerm`, `offsetPhase_pow`, `lowerBy_insertTerm`,
`constant_offset_global_phase`.
-/
import Mathlib
import GateCircuit.Proofs.CommutingEvolution

namespace GateCircuit

/-! ### The rotation of an offset -/

/-- The phase that a constant offset of a given weight contributes to an evolution. -/
noncomputable def offsetPhase (weight angle : ℝ) : ℂ :=
  Complex.exp (-(Complex.I * weight * angle / 2))

/-- Equal shares of the angle add up to the phase of the angle. -/
theorem offsetPhase_pow (weight angle : ℝ) {r : ℕ} (hr : 0 < r) :
    offsetPhase weight (angle / r) ^ r = offsetPhase weight angle := by
  have hr' : (r : ℂ) ≠ 0 := Nat.cast_ne_zero.mpr hr.ne'
  rw [offsetPhase, offsetPhase, ← Complex.exp_nat_mul]
  congr 1
  push_cast
  field_simp

theorem normSq_offsetPhase (weight angle : ℝ) : Complex.normSq (offsetPhase weight angle) = 1 := by
  have hreal : -(Complex.I * weight * angle / 2) = ((-(weight * angle / 2) : ℝ) : ℂ) * Complex.I := by
    push_cast
    ring
  rw [offsetPhase, hreal, Complex.normSq_eq_norm_sq, Complex.norm_exp_ofReal_mul_I, one_pow]

/-- No sign is given where every operator is the identity. -/
theorem stringSign_identity {string : List (Qubit × Pauli)} (h : ∀ a ∈ string, a.2 = .I) (b : ℕ) :
    stringSign string b = 1 := by
  have hnone : string.countP (fun a => a.2 = .Z ∧ b.testBit a.1) = 0 := by
    rw [List.countP_eq_zero]
    intro a ha
    simp [h a ha]
  rw [stringSign, hnone, pow_zero]

section Offset

variable {t : PauliTerm ℝ}

theorem zip_identity (h : t.isIdentity = true) : ∀ a ∈ t.qubits.zip t.paulis, a.2 = .I := by
  intro a ha
  rw [PauliTerm.isIdentity, List.all_eq_true] at h
  exact eq_of_beq (h a.2 (List.of_mem_zip ha).2)

/-- An offset is diagonal. -/
theorem isDiagonal_of_isIdentity (h : t.isIdentity = true) : t.isDiagonal = true := by
  rw [PauliTerm.isIdentity, List.all_eq_true] at h
  rw [PauliTerm.isDiagonal, List.all_eq_true]
  intro p hp
  rw [eq_of_beq (h p hp)]
  rfl

/-- **The rotation of an offset is a phase**, on whatever qubits. -/
theorem turned_identity (h : t.isIdentity = true) (angle : ℝ) :
    t.turned angle = offsetPhase t.coef.re angle • (1 : Operator) := by
  have hstring := zip_identity h
  refine LinearMap.ext fun ψ => funext fun b => ?_
  rw [PauliTerm.turned, turn, mixOperator_diagonal fun a ha => .inl (hstring a ha),
    stringSign_identity hstring, LinearMap.smul_apply, Pi.smul_apply, smul_eq_mul, offsetPhase]
  congr 2
  push_cast
  ring

end Offset

/-! ### Slices with an offset -/

/-- The Hamiltonian with a term put in before the one at `index`, or at the end. -/
def Hamiltonian.insertTerm {R : Type} (h : Hamiltonian R) (index : ℕ) (t : PauliTerm R) :
    Hamiltonian R :=
  { h with terms := h.terms.take index ++ t :: h.terms.drop index }

/-- **The phase of an offset comes out of a slice**, wherever the offset stands. -/
theorem evolution_insertTerm {t : PauliTerm ℝ} (ht : t.isIdentity = true) (h : Hamiltonian ℝ)
    (index : ℕ) (angle : ℝ) :
    evolution (h.insertTerm index t).terms angle =
      offsetPhase t.coef.re angle • evolution h.terms angle := by
  calc evolution (h.terms.take index ++ t :: h.terms.drop index) angle
      = evolution (h.terms.drop index) angle * t.turned angle *
          evolution (h.terms.take index) angle := by rw [evolution_append, evolution_cons]
    _ = offsetPhase t.coef.re angle •
          (evolution (h.terms.drop index) angle * evolution (h.terms.take index) angle) := by
        rw [turned_identity ht, mul_smul_comm, mul_one, smul_mul_assoc]
    _ = offsetPhase t.coef.re angle • evolution h.terms angle := by
        rw [← evolution_append, List.take_append_drop]

/-- Over all slices the phases add up to that of the whole angle. -/
theorem gatesOperator_insertTerm {t : PauliTerm ℝ} (ht : t.isIdentity = true) (h : Hamiltonian ℝ)
    (index : ℕ) (angle : ℝ) {r : ℕ} (hr : 0 < r) :
    gatesOperator (List.replicate r
        ((h.insertTerm index t).terms.map (rotationGate (angle / r)))).flatten =
      offsetPhase t.coef.re angle •
        gatesOperator (List.replicate r (h.terms.map (rotationGate (angle / r)))).flatten := by
  rw [gatesOperator_slices, gatesOperator_slices, gatesOperator_slice, gatesOperator_slice,
    evolution_insertTerm ht, smul_pow, offsetPhase_pow _ _ hr]

/-! ### Lowered circuits -/

theorem slices_pos (angle : ℝ) (n : ℕ) (p : Policy) : 0 < p.slices angle n := by
  cases p with
  | diagonal => exact Nat.one_pos
  | steps repeats => exact chosenRepeats_pos angle n repeats

section Lowered

variable {γ : Type} [CarriesGates γ ℝ] {c c' : Circuit γ} {h : Hamiltonian ℝ} {t : PauliTerm ℝ}
  {angle : ℝ} {p : Policy} {k : ℕ}

/-- A policy that accepts a Hamiltonian accepts it with an offset as well. -/
theorem lowerBy_insertTerm (ht : t.isIdentity = true)
    (haccepted : TermAccepted h.qubitCount c.qubitCount k t) (hlower : c.lowerBy h angle p = .ok c')
    (index : ℕ) : ∃ c'', c.lowerBy (h.insertTerm index t) angle p = .ok c'' := by
  obtain ⟨hterms, hdiag, -⟩ := lowerBy_eq_ok.mp hlower
  have hmem : ∀ t' ∈ (h.insertTerm index t).terms, t' = t ∨ t' ∈ h.terms := by
    intro t' ht'
    rcases List.mem_append.mp ht' with hleft | hright
    · exact .inr (List.mem_of_mem_take hleft)
    · exact (List.mem_cons.mp hright).imp_right List.mem_of_mem_drop
  refine ⟨_, lowerBy_eq_ok.mpr ⟨fun j t' ht' => ?_, fun hp => ?_, rfl⟩⟩
  · rcases hmem t' (List.mem_of_getElem? ht') with rfl | hold
    · exact haccepted.move j
    · obtain ⟨i, hi⟩ := List.getElem?_of_mem hold
      exact (hterms i t' hi).move j
  · have hall := hdiag hp
    rw [Hamiltonian.isDiagonal, List.all_eq_true] at hall ⊢
    intro t' ht'
    rcases hmem t' ht' with rfl | hold
    · exact isDiagonal_of_isIdentity ht
    · exact hall t' hold

/-- Amplitudes that differ by a phase have the same probabilities. -/
theorem probabilities_eq_of_phase {s s' : StateVector ℝ} (hs : s.WellFormed) (hs' : s'.WellFormed)
    (hn : s'.qubitCount = s.qubitCount) {phase : ℂ} (hphase : Complex.normSq phase = 1)
    (hamp : ∀ b, s'.amp b = phase * s.amp b) : s'.probabilities = s.probabilities := by
  have hsize : s'.amplitudes.size = s.amplitudes.size := by
    rw [hs, hs', hn]
  refine Array.ext (by simp [StateVector.probabilities, hsize]) fun b hb hb' => ?_
  have hnorm : Complex.normSq (s'.amp b) = Complex.normSq (s.amp b) := by
    rw [hamp, Complex.normSq_mul, hphase, one_mul]
  have hlt : b < s.amplitudes.size := by simpa [StateVector.probabilities] using hb'
  simpa [StateVector.probabilities, StateVector.amp, hlt, hsize] using hnorm

end Lowered

/-- **A constant offset only contributes a global phase.** If a policy accepts a Hamiltonian then it
accepts the Hamiltonian with a term of identities put in anywhere, provided that this term passes the
checks by itself. The two circuits fail alike on registers on which the circuit fails that was lowered
to. On all others both run to the end, and their amplitudes differ by the phase of minus half the angle
times the weight of the offset; so their probabilities are equal. -/
theorem constant_offset_global_phase {γ : Type} [CarriesGates γ ℝ] {c c' : Circuit γ}
    {h : Hamiltonian ℝ} {t : PauliTerm ℝ} {k : ℕ} {angle : ℝ} {p : Policy}
    (ht : t.isIdentity = true) (haccepted : TermAccepted h.qubitCount c.qubitCount k t)
    (hlower : c.lowerBy h angle p = .ok c') (index : ℕ) :
    ∃ c'' : Circuit γ, c.lowerBy (h.insertTerm index t) angle p = .ok c'' ∧
      ∀ s : StateVector ℝ, s.WellFormed →
        (∀ e u, c.run s = .error e u → c'.run s = .error e u ∧ c''.run s = .error e u) ∧
        ∀ u, c.run s = .ok () u → ∃ v v' : StateVector ℝ,
          c'.run s = .ok () v ∧ c''.run s = .ok () v' ∧
          (∀ b, v'.amp b = Complex.exp (-(Complex.I * t.coef.re * angle / 2)) * v.amp b) ∧
          v'.probabilities = v.probabilities := by
  obtain ⟨c'', hlower'⟩ := lowerBy_insertTerm ht haccepted hlower index
  refine ⟨c'', hlower', fun s hs => ?_⟩
  obtain ⟨hterms, -, rfl⟩ := lowerBy_eq_ok.mp hlower
  obtain ⟨hterms', -, rfl⟩ := lowerBy_eq_ok.mp hlower'
  have hr := slices_pos angle h.qubitCount p
  refine ⟨fun e u hrun => ?_, fun u hrun => ?_⟩
  · rw [Circuit.append_run, Circuit.append_run, hrun]
    exact ⟨rfl, rfl⟩
  · obtain ⟨v, hv, hbecomes⟩ := Circuit.append_run_becomes (rotations_fit hterms _ _) hs hrun
    obtain ⟨v', hv', hbecomes'⟩ := Circuit.append_run_becomes (rotations_fit hterms' _ _) hs hrun
    have hamp : ∀ b, v'.amp b = offsetPhase t.coef.re angle * v.amp b := by
      intro b
      have hop := gatesOperator_insertTerm ht h index angle hr
      rw [hbecomes'.amp, hbecomes.amp]
      exact congrFun (congrArg (fun A : Operator => A u.amp) hop) b
    exact ⟨v, v', hv, hv', hamp, probabilities_eq_of_phase hbecomes.wellFormed hbecomes'.wellFormed
      (hbecomes'.qubitCount.trans hbecomes.qubitCount.symm) (normSq_offsetPhase _ _) hamp⟩

/-- An offset that lists the other qubit. -/
noncomputable def spectatorOffset : PauliTerm ℝ := .ofOps (.ofReal (3 / 2)) [(1, .I)]

/-- The offset between the two terms, in the default number of repeats, on a register with a qubit to
spare. -/
theorem constant_offset_global_phase_spectator :
    spectatorOffset.isIdentity = true ∧ TermAccepted 2 2 0 spectatorOffset ∧
    ∃ c' c'' : Circuit (Gate ℝ),
      (⟨2, []⟩ : Circuit (Gate ℝ)).lowerBy ⟨2, spinTerms⟩ 1 (.steps 0) = .ok c' ∧
      (⟨2, []⟩ : Circuit (Gate ℝ)).lowerBy ⟨2, [.x 0 1, spectatorOffset, .z 0 (1 / 2)]⟩ 1 (.steps 0) =
        .ok c'' ∧
      ∃ v v' : StateVector ℝ, c'.run (basisState 3 5 : StateVector ℝ) = .ok () v ∧
        c''.run (basisState 3 5 : StateVector ℝ) = .ok () v' ∧
        (∀ b, v'.amp b =
          Complex.exp (-(Complex.I * (3 / 2 : ℝ) * (1 : ℝ) / 2)) * v.amp b) ∧
        v'.probabilities = v.probabilities := by
  have hqubits : ∀ q ∈ [1], q < 2 := by decide
  have hoffset : TermAccepted 2 2 0 spectatorOffset :=
    ⟨rfl, hqubits, realCoef_exact rfl, List.nodup_singleton 1, hqubits⟩
  obtain ⟨c', hc'⟩ :
      ∃ c', (⟨2, []⟩ : Circuit (Gate ℝ)).lowerBy ⟨2, spinTerms⟩ 1 (.steps 0) = .ok c' :=
    ⟨_, lower_eq_ok.mpr ⟨fun k t ht => spinTerms_accepted k (List.mem_of_getElem? ht), rfl⟩⟩
  obtain ⟨c'', hc'', hruns⟩ := constant_offset_global_phase (by decide) hoffset hc' 1
  have hempty : (⟨2, []⟩ : Circuit (Gate ℝ)).run (basisState 3 5 : StateVector ℝ) =
      .ok () (basisState 3 5) := Circuit.run_eq_applyAll (by show 2 ≤ 3; decide)
  obtain ⟨-, hsucceeds⟩ := hruns _ (StateVector.wellFormed_basisState 3 5)
  exact ⟨by decide, hoffset, c', c'', hc', hc'', hsucceeds _ hempty⟩

end GateCircuit
