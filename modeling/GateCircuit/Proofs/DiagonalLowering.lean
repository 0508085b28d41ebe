/-
# The two lowerings agree

Both lowerings build and check the same rotations before they append any. So the diagonal lowering is
one repeat of the general lowering, followed by a look for a term that flips a bit: a term that is
refused is refused by both with the same error, wherever the terms that flip bits stand, and only if
no term is refused does the first of those decide.

Key definitions: `Circuit.lowerBy`, `Policy.slices`.
Key theorems: `lowerDiagonal_eq_bind`, `findIdx?_eq_some_iff_flips`, `lowerings_agree`, `lowerBy_eq_ok`.
-/
import Mathlib
import GateCircuit.Command.Lower
import GateCircuit.Proofs.TrotterLowering
import GateCircuit.Proofs.UnitDivision

namespace GateCircuit

open Outcome

variable {R : Type}

/-! ### Terms that flip bits -/

/-- A term has an operator that flips the bit of its qubit. -/
def PauliTerm.Flips (t : PauliTerm R) : Prop := .X ∈ t.paulis ∨ .Y ∈ t.paulis

theorem isDiagonal_eq_false {t : PauliTerm R} : t.isDiagonal = false ↔ t.Flips := by
  rw [PauliTerm.isDiagonal, List.all_eq_false, PauliTerm.Flips]
  constructor
  · rintro ⟨p, hp, hflips⟩
    cases p with
    | I => exact absurd rfl hflips
    | X => exact .inl hp
    | Y => exact .inr hp
    | Z => exact absurd rfl hflips
  · rintro (h | h)
    · exact ⟨.X, h, by decide⟩
    · exact ⟨.Y, h, by decide⟩

theorem isDiagonal_eq_true {t : PauliTerm R} : t.isDiagonal = true ↔ ¬ t.Flips := by
  rw [← isDiagonal_eq_false, Bool.not_eq_false]

/-- The term that is found is the first one that flips a bit. -/
theorem findIdx?_eq_some_iff_flips {ts : List (PauliTerm R)} {k : ℕ} :
    ts.findIdx? (!PauliTerm.isDiagonal ·) = some k ↔
      (∃ t, ts[k]? = some t ∧ t.Flips) ∧ ∀ j < k, ∀ t, ts[j]? = some t → ¬ t.Flips := by
  rw [List.findIdx?_eq_some_iff_getElem]
  constructor
  · rintro ⟨hk, hflips, hfirst⟩
    refine ⟨⟨ts[k], List.getElem?_eq_getElem hk, ?_⟩, fun j hj t ht => ?_⟩
    · rwa [← isDiagonal_eq_false, ← Bool.not_eq_true']
    · obtain ⟨hlt, rfl⟩ := List.getElem?_eq_some_iff.mp ht
      rw [← isDiagonal_eq_true]
      simpa using hfirst j hj
  · rintro ⟨⟨t, ht, hflips⟩, hfirst⟩
    obtain ⟨hk, rfl⟩ := List.getElem?_eq_some_iff.mp ht
    refine ⟨hk, ?_, fun j hj => ?_⟩
    · rw [isDiagonal_eq_false.mpr hflips]
      rfl
    · have := hfirst j hj _ (List.getElem?_eq_getElem (hj.trans hk))
      simpa using isDiagonal_eq_true.mpr this

theorem findIdx?_eq_none_iff_isDiagonal {h : Hamiltonian R} :
    h.terms.findIdx? (!PauliTerm.isDiagonal ·) = none ↔ h.isDiagonal = true := by
  rw [List.findIdx?_eq_none_iff, Hamiltonian.isDiagonal, List.all_eq_true]
  simp

/-! ### One lowering in terms of the other -/

variable [Scalar R]

/-- A rotation is diagonal exactly if its term is. -/
theorem findIdx?_rotationGate (ts : List (PauliTerm R)) (scale : R) :
    (ts.map (rotationGate scale)).findIdx? (!QuantumGate.isDiagonal ·) =
      ts.findIdx? (!PauliTerm.isDiagonal ·) := by
  rw [List.findIdx?_map]
  rfl

variable {γ : Type} [CarriesGates γ R]

/-- **The diagonal lowering is one repeat of the general one**, and then a check that no term flips
a bit. -/
theorem lowerDiagonal_eq_bind [UnitDivision R] (c : Circuit γ) (h : Hamiltonian R) (angle : R) :
    c.lowerDiagonal h angle = (do
      let lowered ← c.lower h angle 1
      match h.terms.findIdx? (!PauliTerm.isDiagonal ·) with
      | some k => throw (.nonDiagonalTerm k)
      | none => pure lowered) := by
  have hscale : angle / Scalar.ofNat (chosenRepeats angle h.qubitCount 1) = angle :=
    UnitDivision.div_one angle
  have honce : ∀ gs : List (Gate R), repeated (chosenRepeats angle h.qubitCount 1) gs = gs := by
    intro gs
    rw [repeated_eq]
    simp [chosenRepeats]
  simp only [Circuit.lowerDiagonal, Circuit.lower, hscale, honce, bind_assoc, pure_bind]
  cases hgs : termRotations h c.qubitCount angle with
  | error e => rfl
  | ok gs =>
    obtain ⟨-, rfl⟩ := termRotations_eq_ok.mp hgs
    rewrite [← findIdx?_rotationGate h.terms angle]
    rfl

/-- **The two lowerings agree.** The diagonal lowering succeeds exactly if one repeat of the general
lowering does and the Hamiltonian is diagonal, and then both make the same circuit. An error of the
general lowering is the error of the diagonal one; if only the diagonal lowering fails, its error is
the position of the first term with an `X` or a `Y`. An error leaves the circuit as it was. -/
theorem lowerings_agree [UnitDivision R] (c : Circuit γ) (h : Hamiltonian R) (angle : R) :
    ((∃ c', c.lowerDiagonal h angle = .ok c') ↔
      (∃ c', c.lower h angle 1 = .ok c') ∧ h.isDiagonal = true) ∧
    (∀ c₁ c₂, c.lowerDiagonal h angle = .ok c₁ → c.lower h angle 1 = .ok c₂ → c₁ = c₂) ∧
    (∀ e, c.lower h angle 1 = .error e → c.lowerDiagonal h angle = .error e) ∧
    ∀ e, c.lowerDiagonal h angle = .error e →
      c.edits [.lowerDiagonal h angle] = c ∧
      ∀ c', c.lower h angle 1 = .ok c' → ∃ k, e = .nonDiagonalTerm k ∧
        (∃ t, h.terms[k]? = some t ∧ (.X ∈ t.paulis ∨ .Y ∈ t.paulis)) ∧
        ∀ j < k, ∀ t, h.terms[j]? = some t → .X ∉ t.paulis ∧ .Y ∉ t.paulis := by
  have hbind := lowerDiagonal_eq_bind c h angle
  have hunchanged : ∀ e, c.lowerDiagonal h angle = .error e →
      c.edits [.lowerDiagonal h angle] = c := fun e he => Circuit.edits_of_error he
  cases hlower : c.lower h angle 1 with
  | error e₀ =>
    -- a term is refused, by both
    rw [hlower] at hbind
    change c.lowerDiagonal h angle = .error e₀ at hbind
    refine ⟨by simp [hbind], by simp, by simp [hbind], fun e he => ⟨hunchanged e he, by simp⟩⟩
  | ok c' =>
    rw [hlower] at hbind
    cases hfind : h.terms.findIdx? (!PauliTerm.isDiagonal ·) with
    | none =>
      have hdiagonal := findIdx?_eq_none_iff_isDiagonal.mp hfind
      rw [hfind] at hbind
      change c.lowerDiagonal h angle = .ok c' at hbind
      refine ⟨by simp [hbind, hdiagonal], by simp [hbind], by simp, by simp [hbind]⟩
    | some k =>
      have hnot : ¬ h.isDiagonal = true := by
        rw [← findIdx?_eq_none_iff_isDiagonal, hfind]
        simp
      obtain ⟨hk, hfirst⟩ := findIdx?_eq_some_iff_flips.mp hfind
      rw [hfind] at hbind
      change c.lowerDiagonal h angle = .error (.nonDiagonalTerm k) at hbind
      refine ⟨by simp [hbind, hnot], by simp [hbind], by simp, fun e he => ⟨hunchanged e he, ?_⟩⟩
      rw [hbind] at he
      rintro _ -
      refine ⟨k, (Except.error.inj he).symm, hk, fun j hj t ht => ?_⟩
      exact not_or.mp (hfirst j hj t ht)

/-! ### Lowering by a policy -/

/-- The circuit with the evolution under a Hamiltonian appended as a policy says; steps of the number
zero ask for the default number. -/
def Circuit.lowerBy (c : Circuit γ) (h : Hamiltonian R) (angle : R) :
    Policy → Except (CircuitError R) (Circuit γ)
  | .diagonal => c.lowerDiagonal h angle
  | .steps repeats => c.lower h angle repeats

/-- The number of slices, of one rotation per term, that a policy appends. -/
def Policy.slices (angle : R) (qubitCount : ℕ) : Policy → ℕ
  | .diagonal => 1
  | .steps repeats => chosenRepeats angle qubitCount repeats

/-- **A policy accepts what passes all checks**: those of every term and, for the diagonal policy, that
no term flips a bit. It appends its slices, by equal shares of the angle. -/
theorem lowerBy_eq_ok [UnitDivision R] {c c' : Circuit γ} {h : Hamiltonian R} {angle : R}
    {p : Policy} : c.lowerBy h angle p = .ok c' ↔
      (∀ k t, h.terms[k]? = some t → TermAccepted h.qubitCount c.qubitCount k t) ∧
      (p = .diagonal → h.isDiagonal = true) ∧
      c' = c.append (List.replicate (p.slices angle h.qubitCount) (h.terms.map
        (rotationGate (angle / Scalar.ofNat (p.slices angle h.qubitCount))))).flatten := by
  cases p with
  | steps repeats =>
    have hnot : Policy.steps repeats ≠ .diagonal := by simp
    simp only [Circuit.lowerBy, Policy.slices, lower_eq_ok, hnot, false_imp_iff, true_and]
  | diagonal =>
    have honce : ∀ c', c.lower h angle 1 = .ok c' ↔ _ := fun c' => lower_eq_ok
    rw [Circuit.lowerBy, lowerDiagonal_eq_bind, bind_eq_ok]
    simp only [honce, Policy.slices, ← findIdx?_eq_none_iff_isDiagonal, forall_const]
    constructor
    · rintro ⟨lowered, ⟨haccepted, rfl⟩, hcheck⟩
      split at hcheck
      · cases hcheck
      · rename_i hfind
        exact ⟨haccepted, hfind, (pure_eq_ok.mp hcheck).symm⟩
    · rintro ⟨haccepted, hfind, rfl⟩
      exact ⟨_, ⟨haccepted, rfl⟩, by rw [hfind]; rfl⟩

/-- A coupling of two qubits and a flip of one. -/
def mixedHamiltonian : Hamiltonian R := ⟨2, [.zz 0 1 1, .x 1 1]⟩

theorem mixedHamiltonian_accepted (hzero : Scalar.less Scalar.tolerance (Scalar.abs (0 : R)) = false)
    (k : ℕ) (t : PauliTerm R) (h : mixedHamiltonian.terms[k]? = some t) : TermAccepted 2 2 k t := by
  have hreal : t.coef.im = 0 → ∃ x, t.realCoef k = .ok x := realCoef_of_im_zero hzero
  obtain rfl | rfl : t = .zz 0 1 1 ∨ t = .x 1 1 := by
    simpa [mixedHamiltonian] using List.mem_of_getElem? h
  · have hqubits : ∀ q ∈ [0, 1], q < 2 := by decide
    have hdistinct : [0, 1].Nodup := by decide
    exact ⟨rfl, hqubits, hreal rfl, hdistinct, hqubits⟩
  · have hqubits : ∀ q ∈ [1], q < 2 := by decide
    exact ⟨rfl, hqubits, hreal rfl, List.nodup_singleton 1, hqubits⟩

/-- Over doubles, one repeat of the general lowering accepts both terms, and the diagonal lowering
complains about the second. -/
theorem lowerings_agree_mixed :
    UnitDivision Float ∧
    ∃ c', (⟨2, []⟩ : Circuit (Gate Float)).lower mixedHamiltonian 1 1 = .ok c' ∧
      (⟨2, []⟩ : Circuit (Gate Float)).lowerDiagonal mixedHamiltonian 1 =
        .error (.nonDiagonalTerm 1) := by
  obtain ⟨hiff, -, -, hfail⟩ :=
    lowerings_agree (⟨2, []⟩ : Circuit (Gate Float)) mixedHamiltonian 1
  obtain ⟨c', hlower⟩ :
      ∃ c', (⟨2, []⟩ : Circuit (Gate Float)).lower mixedHamiltonian 1 1 = .ok c' :=
    ⟨_, lower_eq_ok.mpr ⟨mixedHamiltonian_accepted (by decide +kernel), rfl⟩⟩
  refine ⟨inferInstance, c', hlower, ?_⟩
  cases hdiagonal : (⟨2, []⟩ : Circuit (Gate Float)).lowerDiagonal mixedHamiltonian 1 with
  | ok c' => exact absurd (hiff.mp ⟨c', hdiagonal⟩).2 (by decide)
  | error e =>
    obtain ⟨k, rfl, ⟨t, ht, hflips⟩, -⟩ := (hfail e hdiagonal).2 _ hlower
    match k with
    | 0 =>
      obtain rfl := Option.some.inj ht
      exact absurd hflips (by decide)
    | 1 => rfl

end GateCircuit
