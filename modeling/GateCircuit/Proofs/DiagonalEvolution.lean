/-
# The evolution under a diagonal Hamiltonian

A string of `I` and `Z` multiplies every amplitude by a sign, so a rotation about it multiplies every
amplitude by a phase, and a list of such rotations by the product of their phases. The phases of the
repeats add up to the phase of the whole angle. So a lowered diagonal Hamiltonian turns each amplitude
by half the angle times the energy of its basis state, for every policy, every number of repeats and
every order of the terms.

Key definitions: `stringSign`, `Hamiltonian.energy`, `IsLowering`.
Key theorems: `rotationGate_diagonal`, `gatesOperator_rotations`, `gatesOperator_replicate`,
`rotations_become`, `IsLowering.run_becomes`, `diagonal_evolution`.
-/
import Mathlib
import GateCircuit.Proofs.AppendedGates
import GateCircuit.Proofs.DiagonalLowering

namespace GateCircuit

open Outcome

/-! ### Strings of `I` and `Z` -/

/-- The sign of a basis state under a string: minus one if an odd number of its `Z` operators stand on
set bits. -/
def stringSign (string : List (Qubit × Pauli)) (b : ℕ) : ℝ :=
  (-1) ^ string.countP fun a => a.2 = .Z ∧ b.testBit a.1

theorem stringSign_cons (q : Qubit) (p : Pauli) (rest : List (Qubit × Pauli)) (b : ℕ) :
    stringSign ((q, p) :: rest) b =
      if p = .Z ∧ b.testBit q then -stringSign rest b else stringSign rest b := by
  by_cases h : p = .Z ∧ b.testBit q = true <;> simp [stringSign, h, pow_succ]

theorem stringSign_eq_or (string : List (Qubit × Pauli)) (b : ℕ) :
    stringSign string b = 1 ∨ stringSign string b = -1 :=
  neg_one_pow_eq_or ℝ _

section Strings

variable {string : List (Qubit × Pauli)}

theorem flipMask_diagonal (h : ∀ a ∈ string, a.2 = .I ∨ a.2 = .Z) : flipMask string = 0 := by
  have hnone : string.filter (fun a => a.2.flips) = [] := by
    rw [List.filter_eq_nil_iff]
    intro a ha
    rcases h a ha with hp | hp <;> simp [hp, Pauli.flips]
  rw [flipMask, hnone]
  rfl

theorem stringFactor_diagonal (b : ℕ) : ∀ {string : List (Qubit × Pauli)},
    (∀ a ∈ string, a.2 = .I ∨ a.2 = .Z) → stringFactor string b = stringSign string b
  | [], _ => by simp [stringFactor, stringSign]
  | (q, p) :: rest, h => by
    obtain ⟨hp, hrest⟩ := List.forall_mem_cons.mp h
    rw [stringFactor, stringFactor_diagonal b hrest, stringSign_cons]
    rcases hp with rfl | rfl
    · simp [Pauli.factor]
    · cases b.testBit q <;> simp [Pauli.factor]

/-- The combination of a cosine and a sine that a rotation makes is a phase. -/
theorem cos_sin_eq_exp {sign : ℝ} (hsign : sign = 1 ∨ sign = -1) (x : ℝ) :
    (Real.cos x + -(Real.sin x * Complex.I) * sign : ℂ) = Complex.exp (-(Complex.I * x * sign)) := by
  rw [Complex.ofReal_cos, Complex.ofReal_sin]
  rcases hsign with rfl | rfl
  · have h : -(Complex.I * x * ((1 : ℝ) : ℂ)) = ((-x : ℝ) : ℂ) * Complex.I := by
      push_cast
      ring
    rw [h, Complex.exp_mul_I]
    push_cast
    rw [Complex.cos_neg, Complex.sin_neg]
    ring
  · have h : -(Complex.I * x * ((-1 : ℝ) : ℂ)) = (x : ℂ) * Complex.I := by
      push_cast
      ring
    rw [h, Complex.exp_mul_I]
    push_cast
    ring

theorem mixOperator_diagonal (h : ∀ a ∈ string, a.2 = .I ∨ a.2 = .Z) (x : ℝ) (ψ : ℕ → ℂ) (b : ℕ) :
    mixOperator string (Real.cos x) (-(Real.sin x * Complex.I)) ψ b =
      Complex.exp (-(Complex.I * x * stringSign string b)) * ψ b := by
  rw [← cos_sin_eq_exp (stringSign_eq_or string b), mixOperator, LinearMap.add_apply,
    LinearMap.smul_apply, LinearMap.smul_apply, Pi.add_apply, Pi.smul_apply, Pi.smul_apply,
    stringOperator_apply, flipMask_diagonal h, Nat.xor_zero, stringFactor_diagonal b h,
    LinearMap.id_apply, smul_eq_mul, smul_eq_mul]
  ring

end Strings

/-! ### Terms and Hamiltonians -/

/-- The sign of a basis state under the string of a term. -/
def PauliTerm.sign (t : PauliTerm ℝ) (b : ℕ) : ℝ := stringSign (t.qubits.zip t.paulis) b

/-- The energy of a basis state: the sum of the real weights of all terms, each with its sign. -/
def Hamiltonian.energy (h : Hamiltonian ℝ) (b : ℕ) : ℝ :=
  (h.terms.map fun t => t.coef.re * t.sign b).sum

/-- A weight without imaginary part counts as real. -/
theorem realCoef_exact {t : PauliTerm ℝ} {k : ℕ} (him : t.coef.im = 0) :
    ∃ x, t.realCoef k = .ok x := by
  have hzero : Scalar.less Scalar.tolerance (Scalar.abs (0 : ℝ)) = false := by
    change decide ((1 / 10 ^ 12 : ℝ) < |0|) = false
    rw [abs_zero, decide_eq_false_iff_not]
    norm_num
  exact realCoef_of_im_zero hzero him

/-- Energies do not depend on the order of the terms. -/
theorem energy_perm {h h' : Hamiltonian ℝ} (hperm : h'.terms.Perm h.terms) (b : ℕ) :
    h'.energy b = h.energy b :=
  (hperm.map _).sum_eq

section Rotations

variable {ts : List (PauliTerm ℝ)}

/-- The rotation of a diagonal term multiplies every amplitude by a phase. -/
theorem rotationGate_diagonal {t : PauliTerm ℝ} (ht : ∀ p ∈ t.paulis, p = .I ∨ p = .Z) (scale : ℝ)
    (ψ : ℕ → ℂ) (b : ℕ) :
    (rotationGate scale t).kernel.operator ψ b =
      Complex.exp (-(Complex.I * (scale / 2) * (t.coef.re * t.sign b : ℝ))) * ψ b := by
  have hstring : ∀ a ∈ t.qubits.zip t.paulis, a.2 = .I ∨ a.2 = .Z := fun a ha =>
    ht a.2 (List.of_mem_zip ha).2
  change controlled [] (mixOperator (t.qubits.zip t.paulis) (Real.cos (t.coef.re * scale / 2))
    (-(Real.sin (t.coef.re * scale / 2) * Complex.I))) ψ b = _
  rw [controlled_nil, mixOperator_diagonal hstring, PauliTerm.sign]
  congr 2
  push_cast
  ring

/-- One rotation per term adds up the phases. -/
theorem gatesOperator_rotations (scale : ℝ) (b : ℕ) : ∀ {ts : List (PauliTerm ℝ)},
    (∀ t ∈ ts, ∀ p ∈ t.paulis, p = .I ∨ p = .Z) → ∀ ψ : ℕ → ℂ,
      gatesOperator (ts.map (rotationGate scale)) ψ b =
        Complex.exp (-(Complex.I * (scale / 2) *
          ((ts.map fun t => t.coef.re * t.sign b).sum : ℝ))) * ψ b
  | [], _, ψ => by simp [gatesOperator]
  | t :: ts, h, ψ => by
    obtain ⟨ht, hts⟩ := List.forall_mem_cons.mp h
    rw [List.map_cons, gatesOperator, LinearMap.comp_apply, gatesOperator_rotations scale b hts,
      rotationGate_diagonal ht, ← mul_assoc, ← Complex.exp_add, List.map_cons, List.sum_cons]
    congr 2
    push_cast
    ring

/-- Gates that multiply an amplitude by a factor multiply it by a power of that factor if repeated. -/
theorem gatesOperator_replicate {gs : List (Gate ℝ)} {b : ℕ} {factor : ℂ}
    (h : ∀ ψ : ℕ → ℂ, gatesOperator gs ψ b = factor * ψ b) (ψ : ℕ → ℂ) : ∀ r : ℕ,
    gatesOperator (List.replicate r gs).flatten ψ b = factor ^ r * ψ b
  | 0 => by simp [gatesOperator]
  | r + 1 => by
    have happend : (List.replicate (r + 1) gs).flatten = (List.replicate r gs).flatten ++ gs := by
      rw [List.replicate_succ', List.flatten_append, List.flatten_singleton]
    rw [happend, gatesOperator_append, LinearMap.comp_apply, h, gatesOperator_replicate h ψ r,
      pow_succ]
    ring

/-- Equal shares of the angle add up to the angle. -/
theorem gatesOperator_repeats (h : ∀ t ∈ ts, ∀ p ∈ t.paulis, p = .I ∨ p = .Z) {r : ℕ} (hr : 0 < r)
    (angle : ℝ) (ψ : ℕ → ℂ) (b : ℕ) :
    gatesOperator (List.replicate r (ts.map (rotationGate (angle / r)))).flatten ψ b =
      Complex.exp (-(Complex.I * (angle / 2) *
        ((ts.map fun t => t.coef.re * t.sign b).sum : ℝ))) * ψ b := by
  have hr' : (r : ℂ) ≠ 0 := Nat.cast_ne_zero.mpr hr.ne'
  rw [gatesOperator_replicate (gatesOperator_rotations (angle / r) b h), ← Complex.exp_nat_mul]
  congr 2
  push_cast
  field_simp

end Rotations

/-! ### Lowered circuits -/

theorem defaultRepeats_pos (angle : ℝ) (n : ℕ) : 0 < defaultRepeats angle n := by
  have hcount : ∀ share : ℝ, 0 < if decide (share < 1) then 1 else min ⌊share⌋₊ maxCount := by
    intro share
    split
    · exact Nat.one_pos
    · rename_i hshare
      rw [decide_eq_true_eq, not_lt] at hshare
      exact lt_min (Nat.floor_pos.mpr hshare) (by decide)
  exact hcount _

theorem chosenRepeats_pos (angle : ℝ) (n repeats : ℕ) : 0 < chosenRepeats angle n repeats := by
  unfold chosenRepeats
  split
  · exact defaultRepeats_pos angle n
  · omega

theorem TermAccepted.fits {width n k : ℕ} {t : PauliTerm ℝ} (h : TermAccepted width n k t)
    (scale : ℝ) : (rotationGate scale t).kernel.Fits n := by
  refine ⟨?_, h.lengths⟩
  change FitOperands n (t.qubits ++ [])
  rw [List.append_nil]
  exact ⟨h.inCircuit, h.distinct⟩

section Slices

variable {h : Hamiltonian ℝ} {n : ℕ}
  (haccepted : ∀ k t, h.terms[k]? = some t → TermAccepted h.qubitCount n k t)

include haccepted

/-- The rotations of accepted terms fit the register, however often they are repeated. -/
theorem rotations_fit (r : ℕ) (scale : ℝ) :
    ∀ g ∈ (List.replicate r (h.terms.map (rotationGate scale))).flatten, g.kernel.Fits n := by
  intro g hg
  obtain ⟨slice, hslice, hg⟩ := List.mem_flatten.mp hg
  rw [List.eq_of_mem_replicate hslice] at hg
  obtain ⟨t, ht, rfl⟩ := List.mem_map.mp hg
  obtain ⟨k, hk⟩ := List.getElem?_of_mem ht
  exact (haccepted k t hk).fits scale

/-- The rotations of a diagonal Hamiltonian run on every register that is wide enough, and turn every
amplitude by half the angle times the energy. -/
theorem rotations_become (hdiag : ∀ t ∈ h.terms, ∀ p ∈ t.paulis, p = .I ∨ p = .Z) {r : ℕ}
    (hr : 0 < r) (angle : ℝ) {s : StateVector ℝ} (hs : s.WellFormed) (hwide : n ≤ s.qubitCount) :
    ∃ t : StateVector ℝ,
      applyAll (List.replicate r (h.terms.map (rotationGate (angle / r)))).flatten s = .ok () t ∧
      t.WellFormed ∧ t.qubitCount = s.qubitCount ∧
      ∀ b, t.amp b = Complex.exp (-(Complex.I * (angle / 2) * h.energy b)) * s.amp b := by
  obtain ⟨t, ht, hbecomes⟩ := applyAll_becomes hs fun g hg =>
    (rotations_fit haccepted r (angle / r) g hg).mono hwide
  refine ⟨t, ht, hbecomes.wellFormed, hbecomes.qubitCount, fun b => ?_⟩
  rw [hbecomes.amp, gatesOperator_repeats hdiag hr]
  rfl

end Slices

section Circuits

variable {γ : Type} [CarriesGates γ ℝ] {c c' : Circuit γ} {h h' : Hamiltonian ℝ} {angle : ℝ}

/-- Either policy makes a circuit of another one. -/
def IsLowering (c : Circuit γ) (h : Hamiltonian ℝ) (angle : ℝ) (c' : Circuit γ) : Prop :=
  c.lowerDiagonal h angle = .ok c' ∨ ∃ repeats, c.lower h angle repeats = .ok c'

/-- What either policy appends: the rotations of all terms, by equal shares of the angle. -/
theorem IsLowering.eq_append (hlower : IsLowering c h angle c') :
    (∀ k t, h.terms[k]? = some t → TermAccepted h.qubitCount c.qubitCount k t) ∧
      ∃ r > 0, c' = c.append (List.replicate r (h.terms.map (rotationGate (angle / r)))).flatten := by
  obtain ⟨repeats, hrepeats⟩ : ∃ repeats, c.lower h angle repeats = .ok c' := by
    rcases hlower with hdiagonal | hrepeats
    · rw [lowerDiagonal_eq_bind, bind_eq_ok] at hdiagonal
      obtain ⟨lowered, hlowered, hcheck⟩ := hdiagonal
      split at hcheck
      · cases hcheck
      · rw [pure_eq_ok] at hcheck
        exact ⟨1, hcheck ▸ hlowered⟩
    · exact hrepeats
  obtain ⟨haccepted, heq⟩ := lower_eq_ok.mp hrepeats
  exact ⟨haccepted, _, chosenRepeats_pos angle h.qubitCount repeats, heq⟩

/-- A lowered circuit runs, and turns every amplitude by half the angle times the energy. -/
theorem IsLowering.run_becomes (hempty : c.gates = [])
    (hdiag : ∀ t ∈ h.terms, ∀ p ∈ t.paulis, p = .I ∨ p = .Z) (hlower : IsLowering c h angle c')
    {s : StateVector ℝ} (hs : s.WellFormed) (hwide : c.qubitCount ≤ s.qubitCount) :
    ∃ t : StateVector ℝ, c'.run s = .ok () t ∧ t.WellFormed ∧ t.qubitCount = s.qubitCount ∧
      ∀ b, t.amp b = Complex.exp (-(Complex.I * (angle / 2) * h.energy b)) * s.amp b := by
  obtain ⟨haccepted, r, hr, rfl⟩ := hlower.eq_append
  obtain ⟨t, ht, hevolved⟩ := rotations_become haccepted hdiag hr angle hs hwide
  refine ⟨t, ?_, hevolved⟩
  rw [Circuit.run_eq_applyAll hwide, Circuit.append, hempty, List.nil_append, applyAll_map_ofGate,
    ht]

end Circuits

/-- **Exact evolution under a diagonal Hamiltonian.** An empty circuit to which either policy has
appended the evolution under a Hamiltonian of `I` and `Z` operators runs on every register that is wide
enough. It multiplies the amplitude of each basis state by the phase of minus half the angle times the
energy. So the outcome does not depend on the policy, on the repeats, or on the order of the terms. -/
theorem diagonal_evolution {γ : Type} [CarriesGates γ ℝ] {c c' : Circuit γ} {h : Hamiltonian ℝ}
    {angle : ℝ} {s : StateVector ℝ} (hempty : c.gates = [])
    (hdiag : ∀ t ∈ h.terms, ∀ p ∈ t.paulis, p = .I ∨ p = .Z) (hlower : IsLowering c h angle c')
    (hs : s.WellFormed) (hwide : c.qubitCount ≤ s.qubitCount) :
    (∃ t : StateVector ℝ, c'.run s = .ok () t ∧ t.WellFormed ∧ t.qubitCount = s.qubitCount ∧
      ∀ b, t.amp b = Complex.exp (-(Complex.I * (angle / 2) * h.energy b)) * s.amp b) ∧
    ∀ (h' : Hamiltonian ℝ) (c'' : Circuit γ), h'.terms.Perm h.terms → IsLowering c h' angle c'' →
      c''.run s = c'.run s := by
  obtain ⟨t, ht, hwf, hn, hamp⟩ := hlower.run_becomes hempty hdiag hs hwide
  refine ⟨⟨t, ht, hwf, hn, hamp⟩, fun h' c'' hperm hlower' => ?_⟩
  have hdiag' : ∀ t ∈ h'.terms, ∀ p ∈ t.paulis, p = .I ∨ p = .Z := fun t ht =>
    hdiag t (hperm.mem_iff.mp ht)
  obtain ⟨t', ht', hwf', hn', hamp'⟩ := hlower'.run_becomes hempty hdiag' hs hwide
  have heq : t' = t := by
    refine StateVector.ext_amp hwf' hwf (hn'.trans hn.symm) (funext fun b => ?_)
    rw [hamp, hamp', energy_perm hperm]
  rw [ht, ht', heq]

/-- A coupling of two qubits and a field on one of them. -/
noncomputable def isingTerms : List (PauliTerm ℝ) := [.zz 0 1 1, .z 1 (1 / 2)]

theorem isingTerms_accepted (k : ℕ) {t : PauliTerm ℝ} (ht : t ∈ isingTerms) :
    TermAccepted 2 2 k t := by
  obtain rfl | rfl : t = .zz 0 1 1 ∨ t = .z 1 (1 / 2) := by simpa [isingTerms] using ht
  · have hqubits : ∀ q ∈ [0, 1], q < 2 := by decide
    have hdistinct : [0, 1].Nodup := by decide
    exact ⟨rfl, hqubits, realCoef_exact rfl, hdistinct, hqubits⟩
  · have hqubits : ∀ q ∈ [1], q < 2 := by decide
    exact ⟨rfl, hqubits, realCoef_exact rfl, List.nodup_singleton 1, hqubits⟩

/-- The Hamiltonian in three repeats and, with its terms in the other order, by the diagonal policy, on
a register with a qubit to spare. -/
theorem diagonal_evolution_ising :
    ∃ c' c'' : Circuit (Gate ℝ),
      (⟨2, []⟩ : Circuit (Gate ℝ)).lower ⟨2, isingTerms⟩ 1 3 = .ok c' ∧
      (⟨2, []⟩ : Circuit (Gate ℝ)).lowerDiagonal ⟨2, isingTerms.reverse⟩ 1 = .ok c'' ∧
      c''.run (basisState 3 6 : StateVector ℝ) = c'.run (basisState 3 6 : StateVector ℝ) ∧
      ∃ t : StateVector ℝ, c'.run (basisState 3 6 : StateVector ℝ) = .ok () t ∧
        ∀ b, t.amp b = Complex.exp (-(Complex.I * ((1 : ℝ) / 2) *
          (⟨2, isingTerms⟩ : Hamiltonian ℝ).energy b)) * (basisState 3 6 : StateVector ℝ).amp b := by
  have hdiag : ∀ t ∈ isingTerms, ∀ p ∈ t.paulis, p = .I ∨ p = .Z := by
    intro t ht p hp
    obtain rfl | rfl : t = .zz 0 1 1 ∨ t = .z 1 (1 / 2) := by simpa [isingTerms] using ht
    all_goals
      refine .inr ?_
      simpa [PauliTerm.zz, PauliTerm.z, PauliTerm.ofOps] using hp
  obtain ⟨c', hc'⟩ : ∃ c', (⟨2, []⟩ : Circuit (Gate ℝ)).lower ⟨2, isingTerms⟩ 1 3 = .ok c' :=
    ⟨_, lower_eq_ok.mpr ⟨fun k t ht => isingTerms_accepted k (List.mem_of_getElem? ht), rfl⟩⟩
  obtain ⟨c'', hlower⟩ : ∃ c'',
      (⟨2, []⟩ : Circuit (Gate ℝ)).lower ⟨2, isingTerms.reverse⟩ 1 1 = .ok c'' :=
    ⟨_, lower_eq_ok.mpr ⟨fun k t ht =>
      isingTerms_accepted k (List.mem_reverse.mp (List.mem_of_getElem? ht)), rfl⟩⟩
  have hc'' : (⟨2, []⟩ : Circuit (Gate ℝ)).lowerDiagonal ⟨2, isingTerms.reverse⟩ 1 = .ok c'' := by
    rw [lowerDiagonal_eq_bind, hlower]
    rfl
  have hwide : 2 ≤ (basisState 3 6 : StateVector ℝ).qubitCount := by
    show 2 ≤ 3
    decide
  obtain ⟨⟨t, ht, -, -, hamp⟩, hsame⟩ := diagonal_evolution rfl hdiag (.inr ⟨3, hc'⟩)
    (StateVector.wellFormed_basisState 3 6) hwide
  exact ⟨c', c'', hc', hc'', hsame _ _ (List.reverse_perm _) (.inl hc''), t, ht, hamp⟩

end GateCircuit
