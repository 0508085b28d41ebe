/-
# Which weights count as real

A weight is refused if its imaginary part is greater than the rounding noise, and a rotation takes the real
part of any other weight. On doubles that is less than to ask for an imaginary part that is at most the
noise, because what is no number compares neither way: it passes, whatever a Hamiltonian is said to need.
Otherwise a Hamiltonian is lowered exactly if its imaginary parts are noise and the Hamiltonian without them
is lowered, and both lead to the same circuit.

Key definitions: `PassesAsReal`, `PauliTerm.realPart`, `Hamiltonian.realPart`.
Key theorems: `realCoef_iff`, `lower_realPart`, `lowerDiagonal_realPart`, `addTermRotation_realPart`,
`accepted_weights`, `unreal_weight_accepted`.
-/
import Mathlib
import GateCircuit.Proofs.DoubleOrder
import GateCircuit.Proofs.TermRoutes

namespace GateCircuit

open Outcome

/-- What a weight is measured by: its imaginary part is at most rounding noise, or no number. -/
def PassesAsReal (im : Float) : Prop := im.abs ≤ 1e-12 ∨ im.isNaN = true

/-- The term without the imaginary part of its weight. -/
def PauliTerm.realPart {R : Type} [Scalar R] (t : PauliTerm R) : PauliTerm R :=
  { t with coef := .ofReal t.coef.re }

/-- The Hamiltonian without the imaginary parts of its weights. -/
def Hamiltonian.realPart {R : Type} [Scalar R] (h : Hamiltonian R) : Hamiltonian R :=
  { h with terms := h.terms.map PauliTerm.realPart }

/-! ### Single weights -/

section Single

variable {t : PauliTerm Float} {k n width : ℕ}

/-- **A weight counts as real if its imaginary part is at most rounding noise, or no number.** -/
theorem realCoef_iff : (∃ x, t.realCoef k = .ok x) ↔ PassesAsReal t.coef.im := by
  have hbound : (1e-12 : Float).isNaN = false := by decide +kernel
  have hpasses : PassesAsReal t.coef.im ↔ ¬ (1e-12 : Float) < t.coef.im.abs := by
    rw [Double.not_lt_iff, hbound, Double.isNaN_abs, PassesAsReal]
    simp
  have hless : Scalar.less Scalar.tolerance (Scalar.abs t.coef.im) = true ↔
      (1e-12 : Float) < t.coef.im.abs := decide_eq_true_iff
  rw [hpasses, ← hless, PauliTerm.realCoef]
  split
  · rename_i hgreater
    simp [hgreater]
  · rename_i hless
    exact iff_of_true ⟨_, rfl⟩ hless

theorem realCoef_realPart (t : PauliTerm Float) (k : ℕ) : ∃ x, t.realPart.realCoef k = .ok x :=
  realCoef_of_im_zero (by decide +kernel) rfl

theorem termAccepted_realPart : TermAccepted width n k t ↔
    PassesAsReal t.coef.im ∧ TermAccepted width n k t.realPart := by
  constructor
  · intro h
    exact ⟨realCoef_iff.mp h.real, h.lengths, h.inHamiltonian, realCoef_realPart t k, h.distinct,
      h.inCircuit⟩
  · rintro ⟨hreal, h⟩
    exact ⟨h.lengths, h.inHamiltonian, realCoef_iff.mpr hreal, h.distinct, h.inCircuit⟩

end Single

/-! ### Hamiltonians -/

section Lowered

variable {γ : Type} [CarriesGates γ Float] {c c' : Circuit γ} {h : Hamiltonian Float} {angle : Float}

theorem terms_accepted_realPart {n : ℕ} :
    (∀ k t, h.terms[k]? = some t → TermAccepted h.qubitCount n k t) ↔
      (∀ t ∈ h.terms, PassesAsReal t.coef.im) ∧
        ∀ k t, h.realPart.terms[k]? = some t → TermAccepted h.qubitCount n k t := by
  have hterms : ∀ (k : ℕ) (t : PauliTerm Float), h.realPart.terms[k]? = some t ↔
      ∃ t' : PauliTerm Float, h.terms[k]? = some t' ∧ t'.realPart = t := by
    intro k t
    rw [Hamiltonian.realPart, List.getElem?_map, Option.map_eq_some_iff]
  constructor
  · intro haccepted
    constructor
    · intro t ht
      obtain ⟨k, hk⟩ := List.mem_iff_getElem?.mp ht
      exact (termAccepted_realPart.mp (haccepted k t hk)).1
    · intro k t hk
      obtain ⟨t', hk', rfl⟩ := (hterms k t).mp hk
      exact (termAccepted_realPart.mp (haccepted k t' hk')).2
  · rintro ⟨hreal, haccepted⟩ k t hk
    exact termAccepted_realPart.mpr ⟨hreal t (List.mem_of_getElem? hk),
      haccepted k _ ((hterms k _).mpr ⟨t, hk, rfl⟩)⟩

theorem rotations_realPart (scale : Float) :
    h.realPart.terms.map (rotationGate scale) = h.terms.map (rotationGate scale) := by
  rw [Hamiltonian.realPart, List.map_map]
  rfl

/-- **A Hamiltonian is lowered as its real part is,** if its imaginary parts pass. -/
theorem lower_realPart {repeats : ℕ} : c.lower h angle repeats = .ok c' ↔
    (∀ t ∈ h.terms, PassesAsReal t.coef.im) ∧ c.lower h.realPart angle repeats = .ok c' := by
  rw [lower_eq_ok, lower_eq_ok, terms_accepted_realPart, rotations_realPart, and_assoc]
  rfl

/-- So it is by the diagonal policy, which looks at the operators alone afterwards. -/
theorem lowerDiagonal_realPart : c.lowerDiagonal h angle = .ok c' ↔
    (∀ t ∈ h.terms, PassesAsReal t.coef.im) ∧ c.lowerDiagonal h.realPart angle = .ok c' := by
  have hfind : h.realPart.terms.findIdx? (!PauliTerm.isDiagonal ·) =
      h.terms.findIdx? (!PauliTerm.isDiagonal ·) := by
    rw [Hamiltonian.realPart, List.findIdx?_map]
    rfl
  simp only [lowerDiagonal_eq_bind, bind_eq_ok, hfind]
  constructor
  · rintro ⟨c₁, hlower, hcheck⟩
    obtain ⟨hreal, hlower⟩ := lower_realPart.mp hlower
    exact ⟨hreal, c₁, hlower, hcheck⟩
  · rintro ⟨hreal, c₁, hlower, hcheck⟩
    exact ⟨c₁, lower_realPart.mpr ⟨hreal, hlower⟩, hcheck⟩

theorem addTermRotation_realPart {t : PauliTerm Float} : c.addTermRotation t = .ok c' ↔
    PassesAsReal t.coef.im ∧ c.addTermRotation t.realPart = .ok c' := by
  have hfits : t.realPart.FitsRegister c.qubitCount ↔ t.FitsRegister c.qubitCount :=
    ⟨fun h => ⟨h.lengths, h.distinct, h.inside⟩, fun h => ⟨h.lengths, h.distinct, h.inside⟩⟩
  rw [addTermRotation_eq_ok, addTermRotation_eq_ok, hfits, realCoef_iff]
  constructor
  · rintro ⟨⟨hstring, hreal⟩, rfl⟩
    exact ⟨hreal, ⟨hstring, realCoef_realPart t 0⟩, rfl⟩
  · rintro ⟨hreal, ⟨hstring, -⟩, rfl⟩
    exact ⟨⟨hstring, hreal⟩, rfl⟩

end Lowered

/-- **Which weights are accepted.** Both ways to lower a Hamiltonian, and the rotation about a single term,
succeed exactly if every imaginary part is at most rounding noise or no number, and if the weights without
their imaginary parts are accepted; and then the circuit is the same. -/
theorem accepted_weights {γ : Type} [CarriesGates γ Float] (c : Circuit γ) :
    (∀ h angle repeats c', c.lower h angle repeats = .ok c' ↔
      (∀ t ∈ h.terms, t.coef.im.abs ≤ 1e-12 ∨ t.coef.im.isNaN = true) ∧
        c.lower h.realPart angle repeats = .ok c') ∧
    (∀ h angle c', c.lowerDiagonal h angle = .ok c' ↔
      (∀ t ∈ h.terms, t.coef.im.abs ≤ 1e-12 ∨ t.coef.im.isNaN = true) ∧
        c.lowerDiagonal h.realPart angle = .ok c') ∧
    ∀ t c', c.addTermRotation t = .ok c' ↔
      (t.coef.im.abs ≤ 1e-12 ∨ t.coef.im.isNaN = true) ∧ c.addTermRotation t.realPart = .ok c' :=
  ⟨fun _ _ _ _ => lower_realPart, fun _ _ _ => lowerDiagonal_realPart,
    fun _ _ => addTermRotation_realPart⟩

/-- A weight whose imaginary part is noise is lowered as the real weight, and one whose imaginary part is
not is refused. -/
theorem accepted_weights_noisy :
    let c : Circuit (Gate Float) := ⟨2, []⟩
    let noisy : PauliTerm Float := ⟨[1, 0], [.X, .Z], ⟨0.5, -1e-13⟩⟩
    let complex : PauliTerm Float := ⟨[1], [.Z], ⟨1, 1e-6⟩⟩
    (∃ c', c.lower ⟨2, [noisy]⟩ 0.25 3 = .ok c' ∧ c.lower ⟨2, [noisy.realPart]⟩ 0.25 3 = .ok c') ∧
      (¬ ∃ c', c.lowerDiagonal ⟨2, [noisy.realPart, complex]⟩ 0.25 = .ok c') ∧
      ¬ ∃ c', c.addTermRotation complex = .ok c' := by
  intro c noisy complex
  obtain ⟨hlower, hdiagonal, hadd⟩ := accepted_weights c
  have hnoise : noisy.coef.im.abs ≤ 1e-12 := by decide +kernel
  have hlarge : ¬ (complex.coef.im.abs ≤ 1e-12 ∨ complex.coef.im.isNaN = true) := by decide +kernel
  have haccepted : ∀ k t, [noisy.realPart][k]? = some t → TermAccepted 2 2 k t := by
    intro k t ht
    obtain rfl := List.mem_singleton.mp (List.mem_of_getElem? ht)
    exact ⟨rfl, by decide, realCoef_realPart noisy k, by decide, by decide⟩
  have hreal : c.lower ⟨2, [noisy.realPart]⟩ 0.25 3 = .ok _ := lower_eq_ok.mpr ⟨haccepted, rfl⟩
  refine ⟨⟨_, (hlower _ _ _ _).mpr ⟨?_, hreal⟩, hreal⟩, ?_, ?_⟩
  · intro t ht
    obtain rfl := List.mem_singleton.mp ht
    exact .inl hnoise
  · rintro ⟨c', hc'⟩
    exact hlarge (((hdiagonal _ _ _).mp hc').1 complex (by simp))
  · rintro ⟨c', hc'⟩
    exact hlarge ((hadd _ _).mp hc').1

/-- **A weight that is not real.** Its imaginary part is no number, so it is not at most rounding noise; all
three accept it. -/
theorem unreal_weight_accepted :
    let c : Circuit (Gate Float) := ⟨1, []⟩
    let t : PauliTerm Float := ⟨[0], [.Z], ⟨1, Double.nan⟩⟩
    let lowered : Circuit (Gate Float) :=
      ⟨1, [{ kind := .rotation [.Z] 1, targets := [0], controls := [] }]⟩
    ¬ t.coef.im.abs ≤ 1e-12 ∧ c.lower ⟨1, [t]⟩ 1 1 = .ok lowered ∧
      c.lowerDiagonal ⟨1, [t]⟩ 1 = .ok lowered ∧ c.addTermRotation t = .ok lowered := by
  intro c t lowered
  have hfits : t.FitsRegister c.qubitCount := ⟨rfl, by decide, by decide⟩
  have hreal : ∃ x, t.realCoef 0 = .ok x := realCoef_iff.mpr (.inr (by decide +kernel))
  have hlower : c.lower ⟨1, [t]⟩ 1 1 = .ok lowered := lower_alone_eq_ok.mpr ⟨⟨hfits, hreal⟩, rfl⟩
  refine ⟨by decide +kernel, hlower, ?_, addTermRotation_eq_ok.mpr ⟨⟨hfits, hreal⟩, rfl⟩⟩
  rw [lowerDiagonal_eq_bind, hlower]
  rfl

end GateCircuit
