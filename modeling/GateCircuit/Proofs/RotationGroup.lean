/-
# Rotations about one string

Under the same operands, rotations about one Pauli string are a group with one parameter: two in a row come
to one by the sum of the angles, the one by nothing leaves the register as it is, and the one by `pi` is the
string itself with a factor `-i` wherever the controls are set. The string undoes itself, because the `i` of
each of its `Y` operators meets the sign of the bit that the operator has flipped.

Key definition: `StateVector.scaledWhere`.
Key theorems: `rotationCall_pi`, `rotations_form_group`.
-/
import Mathlib
import GateCircuit.Proofs.InverseCircuit

namespace GateCircuit

namespace StateVector

/-- The register with the amplitudes multiplied by `factor` where all controls are set. -/
def scaledWhere {R : Type} [Scalar R] (s : StateVector R) (cs : List Qubit) (factor : Amplitude R) :
    StateVector R :=
  { s with amplitudes := s.amplitudes.mapIdx fun b a => if AllSet cs b then factor * a else a }

theorem wellFormed_scaledWhere {s : StateVector ℝ} (hs : s.WellFormed) (cs : List Qubit)
    (factor : Amplitude ℝ) : (s.scaledWhere cs factor).WellFormed := by
  rw [WellFormed, scaledWhere, Array.size_mapIdx]
  exact hs

theorem amp_scaledWhere (s : StateVector ℝ) (cs : List Qubit) (factor : Amplitude ℝ) (b : ℕ) :
    (s.scaledWhere cs factor).amp b =
      if AllSet cs b then factor.toComplex * s.amp b else s.amp b := by
  rw [amp, amp, scaledWhere]
  by_cases hb : b < s.amplitudes.size
  · simp only [Array.getD_eq_getD_getElem?, Array.getElem?_mapIdx, Array.getElem?_eq_getElem hb,
      Option.map_some, Option.getD_some]
    split
    · rw [Amplitude.toComplex_mul]
    · rfl
  · rw [getD_of_size_le (by simpa using hb), getD_of_size_le (Nat.le_of_not_lt hb)]
    simp

end StateVector

/-- **Half a turn.** The rotation by `pi` is the string times `-i`, where all controls are set. -/
theorem rotationCall_pi (ts cs : List Qubit) (ps : List Pauli) (ψ : ℕ → ℂ) (b : ℕ) :
    (KernelCall.rotation ts cs ps Real.pi).operator ψ b =
      if AllSet cs b then -Complex.I * (KernelCall.pauli ts cs ps).operator ψ b else ψ b := by
  have hcos : ((Real.cos (Real.pi / 2) : ℝ) : ℂ) = 0 := by rw [Real.cos_pi_div_two, Complex.ofReal_zero]
  have hsin : -(((Real.sin (Real.pi / 2) : ℝ) : ℂ) * Complex.I) = -Complex.I := by
    rw [Real.sin_pi_div_two, Complex.ofReal_one, one_mul]
  rw [KernelCall.operator, KernelCall.operator, hcos, hsin, mixOperator, zero_smul, zero_add,
    controlled_apply, controlled_apply]
  split <;> rfl

section Group

variable {s : StateVector ℝ} {ts cs : List Qubit} {ps : List Pauli}

/-- **Rotations about one string form a group.** On operands that fit, every rotation succeeds; rotations by
`a` and then by `b` leave the register that the rotation by `a + b` leaves; the rotation by zero leaves the
register as it was; the rotation by `pi` leaves what the string leaves, times `-i` where all controls are
set; and the string applied twice leaves the register as it was. -/
theorem rotations_form_group (hs : s.WellFormed) (hfit : FitOperands s.qubitCount (ts ++ cs))
    (hlen : ts.length = ps.length) (a b : ℝ) :
    (∃ t u, s.applyRotation ts cs ps a = .ok t ∧ t.applyRotation ts cs ps b = .ok u ∧
      s.applyRotation ts cs ps (a + b) = .ok u) ∧
    s.applyRotation ts cs ps 0 = .ok s ∧
    ∃ p, s.applyPauli ts cs ps = .ok p ∧
      s.applyRotation ts cs ps Real.pi = .ok (p.scaledWhere cs (-Amplitude.I)) ∧
      p.applyPauli ts cs ps = .ok s := by
  have hrotation : ∀ angle : ℝ, (KernelCall.rotation ts cs ps angle).Fits s.qubitCount := fun _ =>
    ⟨hfit, hlen⟩
  have hpauli : (KernelCall.pauli ts cs ps : KernelCall ℝ).Fits s.qubitCount := ⟨hfit, hlen⟩
  refine ⟨?_, ?_, ?_⟩
  · obtain ⟨t, ht, htwill⟩ := StateVector.perform_becomes hs (hrotation a)
    obtain ⟨u, hu, huwill⟩ := StateVector.perform_becomes htwill.wellFormed
      (htwill.qubitCount ▸ hrotation b)
    obtain ⟨v, hv, hvwill⟩ := StateVector.perform_becomes hs (hrotation (a + b))
    have hsum := htwill.trans huwill
    rw [rotationCall_add hfit hlen] at hsum
    exact ⟨t, u, ht, hu, hvwill.unique hsum ▸ hv⟩
  · obtain ⟨t, ht, htwill⟩ := StateVector.perform_becomes hs (hrotation 0)
    rw [rotationCall_zero] at htwill
    exact htwill.unique (.refl hs) ▸ ht
  · obtain ⟨p, hp, hpwill⟩ := StateVector.perform_becomes hs hpauli
    obtain ⟨q, hq, hqwill⟩ := StateVector.perform_becomes hpwill.wellFormed
      (hpwill.qubitCount ▸ hpauli)
    obtain ⟨t, ht, htwill⟩ := StateVector.perform_becomes hs (hrotation Real.pi)
    refine ⟨p, hp, ?_, ?_⟩
    · have hscaled : t = p.scaledWhere cs (-Amplitude.I) := by
        refine StateVector.ext_amp htwill.wellFormed
          (StateVector.wellFormed_scaledWhere hpwill.wellFormed cs _)
          (htwill.qubitCount.trans hpwill.qubitCount.symm) (funext fun c => ?_)
        rw [htwill.amp, rotationCall_pi, StateVector.amp_scaledWhere, hpwill.amp,
          Amplitude.toComplex_neg, Amplitude.toComplex_I]
        split
        · rfl
        · -- outside the controls the string leaves the amplitude alone
          rename_i hunset
          rw [KernelCall.operator, controlled_apply, if_neg hunset]
      exact hscaled ▸ ht
    · have hback := hpwill.trans hqwill
      rw [pauliCall_comp hfit hlen] at hback
      exact hback.unique (.refl hs) ▸ hq

/-- A string with all four operators on four of five qubits, conditioned on the fifth. -/
theorem rotations_form_group_conditioned :
    (basisState 5 18 : StateVector ℝ).WellFormed ∧ FitOperands 5 ([3, 0, 2, 4] ++ [1]) ∧
      [3, 0, 2, 4].length = [Pauli.Y, .X, .Z, .I].length ∧
      ∃ t u, (basisState 5 18 : StateVector ℝ).applyRotation [3, 0, 2, 4] [1] [.Y, .X, .Z, .I] 1 =
          .ok t ∧ t.applyRotation [3, 0, 2, 4] [1] [.Y, .X, .Z, .I] (Real.pi - 1) = .ok u ∧
        (basisState 5 18 : StateVector ℝ).applyRotation [3, 0, 2, 4] [1] [.Y, .X, .Z, .I] Real.pi =
          .ok u := by
  have hs := StateVector.wellFormed_basisState (R := ℝ) 5 18
  have hfit : FitOperands 5 ([3, 0, 2, 4] ++ [1]) := ⟨by decide, by decide⟩
  have hlen : [3, 0, 2, 4].length = [Pauli.Y, .X, .Z, .I].length := rfl
  have hgroup := rotations_form_group hs hfit hlen 1 (Real.pi - 1)
  rw [add_sub_cancel] at hgroup
  exact ⟨hs, hfit, hlen, hgroup.1⟩

end Group
end GateCircuit
