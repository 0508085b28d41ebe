/-
# Two ways to append a term

A term can be appended to a circuit by itself, as a rotation by its weight or as a string without it; or it
can be the only term of a Hamiltonian that is lowered for one unit of time in one step. By itself it is not
looked at beforehand: the factory compares the lengths of its lists and looks for repeated qubits, and the
circuit compares the qubits with its register. A lowering checks the lengths and the register of the
Hamiltonian before the weight, and then all over again. If the two registers are equally wide the same terms
pass, whatever the order of the checks; and a double times one is that double, so the rotations are the same.

Key definition: `PauliTerm.FitsRegister`.
Key theorems: `add_string_eq_ok`, `addTermRotation_eq_ok`, `addTermPauli_eq_ok`, `lower_alone_eq_ok`,
`term_routes_agree`.
-/
import Mathlib
import GateCircuit.Proofs.DiagonalLowering
import GateCircuit.Proofs.InPlaceEditing

namespace GateCircuit

open Outcome

/-- The string of a term can be put on a register of `n` qubits. -/
structure PauliTerm.FitsRegister {R : Type} (t : PauliTerm R) (n : ℕ) : Prop where
  lengths : t.qubits.length = t.paulis.length
  distinct : t.qubits.Nodup
  inside : ∀ q ∈ t.qubits, q < n

/-- On registers of equal width the checks of a lowering are those of the string and of the weight. -/
theorem termAccepted_iff {R : Type} [Scalar R] {t : PauliTerm R} {n k : ℕ} :
    TermAccepted n n k t ↔ t.FitsRegister n ∧ ∃ x, t.realCoef k = .ok x := by
  constructor
  · intro h
    exact ⟨⟨h.lengths, h.distinct, h.inCircuit⟩, h.real⟩
  · rintro ⟨hfits, hreal⟩
    exact ⟨hfits.lengths, hfits.inside, hreal, hfits.distinct, hfits.inside⟩

/-! ### A term by itself -/

section Add

variable {R γ : Type} [Scalar R] [CarriesGates γ R] {c c' : Circuit γ} {t : PauliTerm R}

/-- **A gate of a string is appended exactly if the string fits the register.** The factory compares the
string with the targets, and nothing else is known of the kind. -/
theorem add_string_eq_ok {kind : GateKind R} {recipe : Recipe R}
    (hbuild : recipe.build = Gate.make kind t.qubits []) (hstring : kind.isPauliString = true)
    (hsize : Gate.checkSize kind t.qubits = .ok () ↔ t.qubits.length = t.paulis.length) :
    c.add recipe = .ok c' ↔ t.FitsRegister c.qubitCount ∧
      c' = c.append [{ kind, targets := t.qubits, controls := [] }] := by
  have hoperands : QuantumGate.operands ({ kind, targets := t.qubits, controls := [] } : Gate R) =
      t.qubits := List.append_nil _
  rw [Circuit.add_eq_ok]
  simp only [hbuild, Gate.make_eq_ok, List.append_nil, hsize, Circuit.push_eq_ok, Circuit.operands_ofGate]
  constructor
  · rintro ⟨_, ⟨-, hlen, hnodup, rfl⟩, hin, rfl⟩
    rw [hoperands] at hin
    exact ⟨⟨hlen, hnodup, hin⟩, rfl⟩
  · rintro ⟨hfits, rfl⟩
    refine ⟨_, ⟨fun _ => hstring, hfits.lengths, hfits.distinct, rfl⟩, ?_, rfl⟩
    rw [hoperands]
    exact hfits.inside

theorem addTermPauli_eq_ok : c.addTermPauli t = .ok c' ↔ t.FitsRegister c.qubitCount ∧
    c' = c.append [{ kind := .pauli t.paulis, targets := t.qubits, controls := [] }] :=
  add_string_eq_ok rfl rfl check_eq_ok

theorem addTermRotation_eq_ok : c.addTermRotation t = .ok c' ↔
    (t.FitsRegister c.qubitCount ∧ ∃ x, t.realCoef 0 = .ok x) ∧
      c' = c.append [{ kind := .rotation t.paulis t.coef.re, targets := t.qubits, controls := [] }] := by
  have hadd : ∀ x, c.add (.rotation t.qubits t.paulis x) = .ok c' ↔ _ := fun x =>
    add_string_eq_ok rfl rfl check_eq_ok
  rw [Circuit.addTermRotation, bind_eq_ok]
  simp only [hadd]
  constructor
  · rintro ⟨x, hx, hfits, rfl⟩
    obtain ⟨hreal, rfl⟩ := realCoef_eq_ok.mp hx
    exact ⟨⟨hfits, hreal⟩, rfl⟩
  · rintro ⟨⟨hfits, hreal⟩, rfl⟩
    exact ⟨_, realCoef_eq_ok.mpr ⟨hreal, rfl⟩, hfits, rfl⟩

end Add

/-! ### A Hamiltonian of one term -/

section Alone

variable {γ : Type} [CarriesGates γ Float] {c c' : Circuit γ} {t : PauliTerm Float}

/-- One step of one unit of time takes a weight as it is. -/
theorem rotationGate_one (t : PauliTerm Float) :
    rotationGate (1 / Scalar.ofNat 1) t =
      { kind := .rotation t.paulis t.coef.re, targets := t.qubits, controls := [] } := by
  have hone : (1 : Float) / Scalar.ofNat 1 = Float.ofNat 1 := UnitDivision.div_one _
  rw [rotationGate, hone, double_mul_one]

theorem lower_alone_eq_ok : c.lower ⟨c.qubitCount, [t]⟩ 1 1 = .ok c' ↔
    (t.FitsRegister c.qubitCount ∧ ∃ x, t.realCoef 0 = .ok x) ∧
      c' = c.append [{ kind := .rotation t.paulis t.coef.re, targets := t.qubits, controls := [] }] := by
  have haccepted : (∀ k t', [t][k]? = some t' → TermAccepted c.qubitCount c.qubitCount k t') ↔
      TermAccepted c.qubitCount c.qubitCount 0 t := by
    constructor
    · exact fun h => h 0 t rfl
    · intro h k t' hk
      obtain ⟨rfl, rfl⟩ : k = 0 ∧ t = t' := by simpa [List.getElem?_singleton] using hk
      exact h
  have hgates : (List.replicate (chosenRepeats (1 : Float) c.qubitCount 1)
      ([t].map (rotationGate (1 / Scalar.ofNat (chosenRepeats (1 : Float) c.qubitCount 1))))).flatten =
      [rotationGate (1 / Scalar.ofNat 1) t] := rfl
  rw [lower_eq_ok, haccepted, termAccepted_iff, hgates, rotationGate_one]

/-- The weight one is real. -/
theorem realCoef_one (t : PauliTerm Float) (k : ℕ) :
    ∃ x, ({ t with coef := 1 } : PauliTerm Float).realCoef k = .ok x :=
  realCoef_of_im_zero (by decide +kernel) rfl

end Alone

/-- **The two ways to append a term agree.** Appending a term as a rotation succeeds exactly if the term can
be lowered alone, for one unit of time in one step, and both ways lead to the same circuit. Appending its
string succeeds exactly if the term can be lowered alone with the weight one, and appends its operators on
its qubits. In place, a way that fails leaves the circuit as it was. -/
theorem term_routes_agree {γ : Type} [CarriesGates γ Float] (c : Circuit γ) (t : PauliTerm Float) :
    let alone (t : PauliTerm Float) : Hamiltonian Float := ⟨c.qubitCount, [t]⟩
    ((∃ c', c.addTermRotation t = .ok c') ↔ ∃ c', c.lower (alone t) 1 1 = .ok c') ∧
    (∀ c₁ c₂, c.addTermRotation t = .ok c₁ → c.lower (alone t) 1 1 = .ok c₂ → c₁ = c₂) ∧
    ((∃ c', c.addTermPauli t = .ok c') ↔ ∃ c', c.lower (alone { t with coef := 1 }) 1 1 = .ok c') ∧
    (∀ c', c.addTermPauli t = .ok c' → c' = { c with gates := c.gates ++
      [CarriesGates.ofGate { kind := .pauli t.paulis, targets := t.qubits, controls := [] }] }) ∧
    ∀ change ∈ [.addTermRotation t, .addTermPauli t, .lower (alone t) 1 1,
        .lower (alone { t with coef := 1 }) 1 1],
      ∀ e u, Circuit.carryOut id (.edit change) c = .error e u → u = c := by
  intro alone
  refine ⟨?_, ?_, ?_, ?_, ?_⟩
  · simp only [alone, addTermRotation_eq_ok, lower_alone_eq_ok]
  · intro c₁ c₂ hadd hlower
    rw [(addTermRotation_eq_ok.mp hadd).2, (lower_alone_eq_ok.mp hlower).2]
  · have hfits : ({ t with coef := 1 } : PauliTerm Float).FitsRegister c.qubitCount ↔
        t.FitsRegister c.qubitCount :=
      ⟨fun h => ⟨h.lengths, h.distinct, h.inside⟩, fun h => ⟨h.lengths, h.distinct, h.inside⟩⟩
    constructor
    · rintro ⟨c', hadd⟩
      obtain ⟨hstring, -⟩ := addTermPauli_eq_ok.mp hadd
      exact ⟨_, lower_alone_eq_ok.mpr ⟨⟨hfits.mpr hstring, realCoef_one t 0⟩, rfl⟩⟩
    · rintro ⟨c', hlower⟩
      obtain ⟨⟨hstring, -⟩, -⟩ := lower_alone_eq_ok.mp hlower
      exact ⟨_, addTermPauli_eq_ok.mpr ⟨hfits.mp hstring, rfl⟩⟩
  · exact fun c' hadd => (addTermPauli_eq_ok.mp hadd).2
  · intro change _ e u hu
    rw [Circuit.carryOut_eq] at hu
    cases hedit : c.operate id (.edit change) with
    | ok c' => rw [hedit] at hu; cases hu
    | error e' => rw [hedit] at hu; cases hu; rfl

/-- A term on two of three qubits, out of order. -/
theorem term_routes_agree_pair :
    let c : Circuit (Gate Float) := ⟨3, []⟩
    let t : PauliTerm Float := ⟨[2, 0], [.X, .Z], ⟨0.5, 0⟩⟩
    (∃ c', c.addTermRotation t = .ok c' ∧ c.lower ⟨3, [t]⟩ 1 1 = .ok c') ∧
      c.addTermPauli t = .ok ⟨3, [{ kind := .pauli [.X, .Z], targets := [2, 0], controls := [] }]⟩ := by
  intro c t
  have hfits : t.FitsRegister c.qubitCount := ⟨rfl, by decide, by decide⟩
  have hreal : ∃ x, t.realCoef 0 = .ok x := realCoef_of_im_zero (by decide +kernel) rfl
  have hadd : c.addTermRotation t = .ok _ := addTermRotation_eq_ok.mpr ⟨⟨hfits, hreal⟩, rfl⟩
  have hpauli : c.addTermPauli t = .ok _ := addTermPauli_eq_ok.mpr ⟨hfits, rfl⟩
  obtain ⟨hiff, hsame, -, happended, -⟩ := term_routes_agree c t
  obtain ⟨c', hlower⟩ := hiff.mp ⟨_, hadd⟩
  refine ⟨⟨c', ?_, hlower⟩, ?_⟩
  · rw [hadd, hsame _ _ hadd hlower]
  · rw [hpauli, happended _ hpauli]
    rfl

end GateCircuit
