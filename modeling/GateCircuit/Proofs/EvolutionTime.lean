/-
# How far a lowering evolves

A rotation by an angle turns its string by half the angle, and a lowering hands its angle on to the
rotations as it is. So what the diagonal policy appends to a circuit evolves the register for half the
angle: it multiplies the amplitude of each basis state by the phase of minus half the angle times the
energy, whatever gates the circuit holds already. The phases of the whole angle are what twice the angle
gives, and they differ: `Z` on one qubit, by the angle `π`, gives `-i` and not `-1`.

Key theorems: `lowerDiagonal_diagonal`, `appended_evolution`, `whole_angle_refuted`.
-/
import Mathlib
import GateCircuit.Proofs.AppendedGates
import GateCircuit.Proofs.DiagonalEvolution

namespace GateCircuit

open Outcome

section Lowered

variable {γ : Type} [CarriesGates γ ℝ] {c c' : Circuit γ} {h : Hamiltonian ℝ} {angle : ℝ}

/-- What the diagonal policy accepts consists of `I` and `Z` operators. -/
theorem lowerDiagonal_diagonal (hlower : c.lowerDiagonal h angle = .ok c') :
    ∀ t ∈ h.terms, ∀ p ∈ t.paulis, p = .I ∨ p = .Z := by
  rw [lowerDiagonal_eq_bind, bind_eq_ok] at hlower
  obtain ⟨_, -, hcheck⟩ := hlower
  cases hfind : h.terms.findIdx? (!PauliTerm.isDiagonal ·) with
  | some k =>
    rw [hfind] at hcheck
    cases hcheck
  | none =>
    have hdiagonal : h.isDiagonal = true := findIdx?_eq_none_iff_isDiagonal.mp hfind
    rw [Hamiltonian.isDiagonal, List.all_eq_true] at hdiagonal
    intro t ht p hp
    have hflips : ¬ t.Flips := isDiagonal_eq_true.mp (hdiagonal t ht)
    cases p with
    | I => exact .inl rfl
    | X => exact absurd (.inl hp) hflips
    | Y => exact absurd (.inr hp) hflips
    | Z => exact .inr rfl

/-- **The appended gates evolve for half the angle.** Whatever the circuit holds, a Hamiltonian that the
diagonal policy accepts appends gates that run on every register that is wide enough. They multiply the
amplitude of each basis state by the phase of minus half the angle times the energy. -/
theorem appended_evolution (hlower : c.lowerDiagonal h angle = .ok c') {s : StateVector ℝ}
    (hs : s.WellFormed) (hwide : c.qubitCount ≤ s.qubitCount) :
    ∃ t : StateVector ℝ, c'.runRange c.size c'.size s = .ok () t ∧ t.WellFormed ∧
      t.qubitCount = s.qubitCount ∧
      ∀ b, t.amp b = Complex.exp (-(Complex.I * (angle / 2) * h.energy b)) * s.amp b := by
  have hdiagonal := lowerDiagonal_diagonal hlower
  obtain ⟨haccepted, r, hr, rfl⟩ := IsLowering.eq_append (.inl hlower)
  obtain ⟨t, ht, hevolved⟩ := rotations_become haccepted hdiagonal hr angle hs hwide
  refine ⟨t, ?_, hevolved⟩
  rw [Circuit.append_runRange c _ s hwide, ht]

end Lowered

/-- A flip, and behind it the evolution under the coupling and the field, on a register with a qubit to
spare. -/
theorem appended_evolution_ising :
    ∃ c' : Circuit (Gate ℝ),
      (⟨2, [Gate.single .x 0]⟩ : Circuit (Gate ℝ)).lowerDiagonal ⟨2, isingTerms⟩ 1 = .ok c' ∧
      ∃ t : StateVector ℝ, c'.runRange 1 c'.size (basisState 3 5 : StateVector ℝ) = .ok () t ∧
        ∀ b, t.amp b = Complex.exp (-(Complex.I * ((1 : ℝ) / 2) *
          (⟨2, isingTerms⟩ : Hamiltonian ℝ).energy b)) * (basisState 3 5 : StateVector ℝ).amp b := by
  obtain ⟨c₁, hlower⟩ : ∃ c₁,
      (⟨2, [Gate.single .x 0]⟩ : Circuit (Gate ℝ)).lower ⟨2, isingTerms⟩ 1 1 = .ok c₁ :=
    ⟨_, lower_eq_ok.mpr ⟨fun k t ht => isingTerms_accepted k (List.mem_of_getElem? ht), rfl⟩⟩
  have hc₁ : (⟨2, [Gate.single .x 0]⟩ : Circuit (Gate ℝ)).lowerDiagonal ⟨2, isingTerms⟩ 1 =
      .ok c₁ := by
    rw [lowerDiagonal_eq_bind, hlower]
    rfl
  have hwide : 2 ≤ (basisState 3 5 : StateVector ℝ).qubitCount := by
    show 2 ≤ 3
    decide
  obtain ⟨t, ht, -, -, hamp⟩ :=
    appended_evolution hc₁ (StateVector.wellFormed_basisState 3 5) hwide
  exact ⟨c₁, hc₁, t, ht, hamp⟩

/-- **It is not the whole angle.** On the lower basis state of one qubit, the evolution under `Z` by the
angle `π` gives the amplitude `-i`, and the phase of the whole angle would be `-1`. -/
theorem whole_angle_refuted :
    ¬ ∀ (c c' : Circuit (Gate ℝ)) (h : Hamiltonian ℝ) (angle : ℝ) (s t : StateVector ℝ),
      (∀ t ∈ h.terms, ∀ p ∈ t.paulis, p = .I ∨ p = .Z) → c.lowerDiagonal h angle = .ok c' →
      s.WellFormed → c.qubitCount ≤ s.qubitCount → c'.runRange c.size c'.size s = .ok () t →
      ∀ b, t.amp b = Complex.exp (-(Complex.I * angle * h.energy b)) * s.amp b := by
  intro hwhole
  have hdiagonal : ∀ t ∈ [(PauliTerm.z 0 1 : PauliTerm ℝ)], ∀ p ∈ t.paulis, p = .I ∨ p = .Z := by
    intro t ht p hp
    obtain rfl := List.mem_singleton.mp ht
    exact .inr (List.mem_singleton.mp hp)
  have haccepted : ∀ k t, [(PauliTerm.z 0 1 : PauliTerm ℝ)][k]? = some t → TermAccepted 1 1 k t := by
    intro k t ht
    obtain rfl := List.mem_singleton.mp (List.mem_of_getElem? ht)
    have hqubits : ∀ q ∈ [0], q < 1 := by decide
    exact ⟨rfl, hqubits, realCoef_exact rfl, List.nodup_singleton 0, hqubits⟩
  obtain ⟨c', hlower⟩ : ∃ c', (⟨1, []⟩ : Circuit (Gate ℝ)).lower ⟨1, [.z 0 1]⟩ Real.pi 1 = .ok c' :=
    ⟨_, lower_eq_ok.mpr ⟨haccepted, rfl⟩⟩
  have hc' : (⟨1, []⟩ : Circuit (Gate ℝ)).lowerDiagonal ⟨1, [.z 0 1]⟩ Real.pi = .ok c' := by
    rw [lowerDiagonal_eq_bind, hlower]
    rfl
  have hwf : (basisState 1 0 : StateVector ℝ).WellFormed := StateVector.wellFormed_basisState 1 0
  obtain ⟨t, ht, -, -, hhalf⟩ := IsLowering.run_becomes rfl hdiagonal (.inl hc') hwf le_rfl
  have hfull := hwhole _ _ _ _ _ t hdiagonal hc' hwf le_rfl ht 0
  have henergy : (⟨1, [.z 0 1]⟩ : Hamiltonian ℝ).energy 0 = 1 := by
    have hsign : (PauliTerm.z 0 1 : PauliTerm ℝ).sign 0 = 1 := by
      simp [PauliTerm.sign, PauliTerm.z, PauliTerm.ofOps, stringSign]
    rw [Hamiltonian.energy, List.map_singleton, List.sum_singleton, hsign, mul_one]
    rfl
  have hamp : (basisState 1 0 : StateVector ℝ).amp 0 = 1 := by
    rw [StateVector.amp_basisState (by decide), Pi.single_eq_same]
  rw [hhalf 0, henergy, hamp, mul_one, mul_one, Complex.ofReal_one, mul_one, mul_one] at hfull
  have hquarter : Complex.exp (-(Complex.I * (Real.pi / 2))) = -Complex.I := by
    rw [Complex.exp_neg, mul_comm, Complex.exp_pi_div_two_mul_I, Complex.inv_I]
  have hturn : Complex.exp (-(Complex.I * Real.pi)) = -1 := by
    rw [Complex.exp_neg, mul_comm, Complex.exp_pi_mul_I]
    norm_num
  rw [hquarter, hturn] at hfull
  have hreal : (-Complex.I).re = (-1 : ℂ).re := congrArg Complex.re hfull
  norm_num at hreal

end GateCircuit
