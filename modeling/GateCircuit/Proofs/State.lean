/-
# State vectors as amplitude functions

A state vector is read as a function from basis indices to complex numbers, zero beyond the
register. A state is determined by its width and its amplitudes, so what a kernel does to it is told
by an operator.

Key definitions: `StateVector.WellFormed`, `StateVector.amp`, `basisState`, `StateVector.Becomes`.
Key theorems: `StateVector.wellFormed_iff_ofAmplitudes`, `StateVector.setBasis_eq`,
`StateVector.ext_amp`, `StateVector.Becomes.of_amplitudes`, `StateVector.Becomes.trans`.
-/
import Mathlib
import GateCircuit.Proofs.Operator
import GateCircuit.Proofs.Sweep

namespace GateCircuit

/-- The basis state `index` of a register of `n` qubits. -/
def basisState {R : Type} [Scalar R] (n index : ℕ) : StateVector R :=
  ⟨StateVector.basisAmplitudes (dimension n) index, n⟩

namespace StateVector

section Shape

variable {R : Type}

/-- The register has an amplitude for every basis state and no more. -/
def WellFormed (s : StateVector R) : Prop := s.amplitudes.size = dimension s.qubitCount

/-- **The well-formed registers are those that can be made** from their amplitudes. -/
theorem wellFormed_iff_ofAmplitudes {s : StateVector R} :
    s.WellFormed ↔ ofAmplitudes s.amplitudes = .ok s := by
  obtain ⟨amps, n⟩ := s
  simp only [WellFormed, ofAmplitudes]
  constructor
  · intro h
    have hlog : amps.size.log2 = n := by rw [h, dimension_eq, Nat.log2_two_pow]
    rw [hlog, if_pos h]
  · intro h
    split at h
    · rename_i hsize
      rw [Except.ok.injEq, StateVector.mk.injEq] at h
      rwa [h.2] at hsize
    · cases h

theorem amplitudes_ofAmplitudes {amps : Array (Amplitude R)} {s : StateVector R}
    (h : ofAmplitudes amps = .ok s) : s.amplitudes = amps := by
  simp only [ofAmplitudes] at h
  split at h
  · rw [← Except.ok.inj h]
  · cases h

theorem wellFormed_ofAmplitudes {amps : Array (Amplitude R)} {s : StateVector R}
    (h : ofAmplitudes amps = .ok s) : s.WellFormed := by
  rw [wellFormed_iff_ofAmplitudes, amplitudes_ofAmplitudes h, h]

variable [Scalar R]

theorem wellFormed_basisState (n index : ℕ) : (basisState n index : StateVector R).WellFormed := by
  simp [WellFormed, basisState, basisAmplitudes]

theorem wellFormed_zeroState {n : ℕ} {s : StateVector R} (h : zeroState n = .ok s) :
    s.WellFormed := by
  unfold zeroState at h
  split at h
  · cases h
  · cases h
    exact wellFormed_basisState n 0

/-- Setting a register to a basis state forgets what was in it. -/
theorem setBasis_eq {s : StateVector R} (hs : s.WellFormed) {index : ℕ}
    (hi : index < dimension s.qubitCount) :
    s.setBasis index = .ok (basisState s.qubitCount index) := by
  unfold WellFormed at hs
  rw [setBasis, if_neg (by omega), hs]
  rfl

end Shape

/-! ### Reading amplitudes -/

/-- The amplitude of a basis index, zero beyond the register. -/
noncomputable def amp (s : StateVector ℝ) (b : ℕ) : ℂ := (s.amplitudes.getD b 0).toComplex

theorem amp_eq_zero {s : StateVector ℝ} (hs : s.WellFormed) {b : ℕ} (hb : 2 ^ s.qubitCount ≤ b) :
    s.amp b = 0 := by
  have hb' : s.amplitudes.size ≤ b := by rwa [hs, dimension_eq]
  rw [amp, getD_of_size_le hb']
  rfl

/-- States of equal width with the same amplitudes are equal. -/
theorem ext_amp {s t : StateVector ℝ} (hs : s.WellFormed) (ht : t.WellFormed)
    (hn : s.qubitCount = t.qubitCount) (h : s.amp = t.amp) : s = t := by
  obtain ⟨as, n⟩ := s
  obtain ⟨bs, m⟩ := t
  simp only at hn
  subst hn
  have hsize : as.size = bs.size := hs.trans ht.symm
  have : as = bs := by
    refine Array.ext hsize fun b hb hb' => ?_
    have := Amplitude.toComplex_injective (congrFun h b)
    simpa [hb, hb'] using this
  rw [this]

theorem amp_basisState {n index : ℕ} (hi : index < 2 ^ n) :
    (basisState n index : StateVector ℝ).amp = Pi.single index 1 := by
  funext b
  rw [amp, basisState, basisAmplitudes, getD_setIfInBounds, Array.size_replicate, dimension_eq,
    Pi.single_apply]
  by_cases hb : index = b
  · subst hb
    rw [if_pos ⟨rfl, hi⟩, if_pos rfl]
    rfl
  · rw [if_neg (by simp [hb]), if_neg (Ne.symm hb)]
    by_cases hlt : b < 2 ^ n
    · simp [hlt]
    · simp [hlt]

/-! ### What becomes of a state -/

/-- The state `t` is `s` after the operator `A`. -/
structure Becomes (s : StateVector ℝ) (A : Operator) (t : StateVector ℝ) : Prop where
  wellFormed : t.WellFormed
  qubitCount : t.qubitCount = s.qubitCount
  amp : t.amp = A s.amp

theorem Becomes.refl {s : StateVector ℝ} (hs : s.WellFormed) : s.Becomes LinearMap.id s :=
  ⟨hs, rfl, rfl⟩

/-- A local operator leaves nothing beyond the register, so it is enough to look inside. -/
theorem Becomes.of_amplitudes {s : StateVector ℝ} (hs : s.WellFormed) {A : Operator}
    (hA : Local s.qubitCount A) {amps : Array (Amplitude ℝ)}
    (hsize : amps.size = s.amplitudes.size)
    (h : ∀ b < 2 ^ s.qubitCount, (amps.getD b 0).toComplex = A s.amp b) :
    s.Becomes A { s with amplitudes := amps } := by
  have hwf : ({ s with amplitudes := amps } : StateVector ℝ).WellFormed := hsize.trans hs
  refine ⟨hwf, rfl, funext fun b => ?_⟩
  by_cases hb : b < 2 ^ s.qubitCount
  · exact h b hb
  · have hb' : 2 ^ s.qubitCount ≤ b := Nat.le_of_not_lt hb
    rw [amp_eq_zero hwf hb', hA.vanishes (fun c hc => amp_eq_zero hs hc) hb']

theorem Becomes.trans {s t u : StateVector ℝ} {A B : Operator} (h : s.Becomes A t)
    (h' : t.Becomes B u) : s.Becomes (B ∘ₗ A) u :=
  ⟨h'.wellFormed, h'.qubitCount.trans h.qubitCount, by rw [h'.amp, h.amp, LinearMap.comp_apply]⟩

/-- The operator and the width leave no choice. -/
theorem Becomes.unique {s t u : StateVector ℝ} {A : Operator} (h : s.Becomes A t)
    (h' : s.Becomes A u) : t = u :=
  ext_amp h.wellFormed h'.wellFormed (h.qubitCount.trans h'.qubitCount.symm) (h.amp.trans h'.amp.symm)

end StateVector
end GateCircuit
