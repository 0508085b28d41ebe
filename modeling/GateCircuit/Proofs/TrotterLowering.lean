/-
# Lowering a Hamiltonian in repeats

Every term passes five checks before any gate is appended: its lists are equally long, its qubits lie
inside the Hamiltonian's register, its weight is real, its qubits are distinct, and they lie inside
the circuit's register. If all terms pass all checks then the circuit gains one rotation per term and
repeat; otherwise it stays as it was, and the error is that of the first check that the first refused
term fails.

Key definitions: `TermAccepted`, `TermRejected`, `rotationGate`.
Key theorems: `termRotation_eq_ok`, `termRotation_eq_error`, `termRotations_eq_ok`,
`termRotations_eq_error`, `lower_outcome`.
-/
import Mathlib
import GateCircuit.Circuit.Edit
import GateCircuit.Proofs.Building
import GateCircuit.Proofs.Register

namespace GateCircuit

open Outcome

variable {R : Type}

/-! ### Single checks -/

section Single

variable {width k : ℕ} {t : PauliTerm R} {angle : R}

theorem validate_eq_ok : t.validate k width = .ok () ↔
    t.qubits.length = t.paulis.length ∧ ∀ q ∈ t.qubits, q < width := by
  rw [PauliTerm.validate, ← find?_beyond_eq_none]
  by_cases hlen : t.qubits.length = t.paulis.length
  · rw [if_neg (not_not.mpr hlen)]
    cases t.qubits.find? (width ≤ ·) <;> simp [hlen]
  · rw [if_pos hlen]
    simp [hlen]

theorem validate_eq_error {e : CircuitError R} : t.validate k width = .error e ↔
    (t.qubits.length ≠ t.paulis.length ∧
      e = .malformedTerm k (.unequalLists t.qubits.length t.paulis.length)) ∨
    (t.qubits.length = t.paulis.length ∧
      ∃ q, FirstBeyond width t.qubits q ∧ e = .qubitOutOfRange q width none) := by
  simp only [PauliTerm.validate, ← find?_beyond_eq_some]
  by_cases hlen : t.qubits.length = t.paulis.length
  · rw [if_neg (not_not.mpr hlen)]
    cases t.qubits.find? (width ≤ ·) <;> simp [hlen, eq_comm]
  · rw [if_pos hlen]
    simp [hlen, eq_comm]

theorem checkSize_rotation (hlen : t.qubits.length = t.paulis.length) :
    Gate.checkSize (.rotation t.paulis angle) t.qubits = .ok () := if_pos hlen

theorem build_rotation_eq_ok {g : Gate R} (hlen : t.qubits.length = t.paulis.length) :
    (Recipe.rotation t.qubits t.paulis angle).build = .ok g ↔
      t.qubits.Nodup ∧
        g = { kind := .rotation t.paulis angle, targets := t.qubits, controls := [] } := by
  rw [Recipe.build, Gate.make_eq_ok, List.append_nil]
  simp [checkSize_rotation hlen, GateKind.isPauliString]

theorem build_rotation_eq_error {e : CircuitError R}
    (hlen : t.qubits.length = t.paulis.length) :
    (Recipe.rotation t.qubits t.paulis angle).build = .error e ↔
      ∃ q, FirstRepeated t.qubits q ∧ e = .duplicateQubit q (some "pauli_rotation") := by
  have hempty : t.qubits = [] → (GateKind.rotation t.paulis angle).isPauliString = true :=
    fun _ => rfl
  rw [Recipe.build, Gate.make_eq_error hempty (checkSize_rotation hlen), List.append_nil]
  rfl

end Single

/-! ### The checks of a term -/

variable [Scalar R]

/-- The term at position `k` passes the checks of a Hamiltonian on `width` qubits and of a circuit
on `n` qubits. -/
structure TermAccepted (width n k : ℕ) (t : PauliTerm R) : Prop where
  lengths : t.qubits.length = t.paulis.length
  inHamiltonian : ∀ q ∈ t.qubits, q < width
  real : ∃ x, t.realCoef k = .ok x
  distinct : t.qubits.Nodup
  inCircuit : ∀ q ∈ t.qubits, q < n

/-- The term at position `k` is refused with an error: that of the first check it fails. -/
inductive TermRejected (width n k : ℕ) (t : PauliTerm R) : CircuitError R → Prop
  | lengths (hlen : t.qubits.length ≠ t.paulis.length) :
    TermRejected width n k t
      (.malformedTerm k (.unequalLists t.qubits.length t.paulis.length))
  | beyondHamiltonian {q : Qubit} (hlen : t.qubits.length = t.paulis.length)
      (hq : FirstBeyond width t.qubits q) :
    TermRejected width n k t (.qubitOutOfRange q width none)
  | notReal (hlen : t.qubits.length = t.paulis.length) (hwidth : ∀ q ∈ t.qubits, q < width)
      (hreal : ¬ ∃ x, t.realCoef k = .ok x) :
    TermRejected width n k t (.malformedTerm k (.notReal t.coef))
  | repeated {q : Qubit} (hlen : t.qubits.length = t.paulis.length)
      (hwidth : ∀ q ∈ t.qubits, q < width) (hreal : ∃ x, t.realCoef k = .ok x)
      (hq : FirstRepeated t.qubits q) :
    TermRejected width n k t (.duplicateQubit q (some "pauli_rotation"))
  | beyondCircuit {q : Qubit} (hlen : t.qubits.length = t.paulis.length)
      (hwidth : ∀ q ∈ t.qubits, q < width) (hreal : ∃ x, t.realCoef k = .ok x)
      (hnodup : t.qubits.Nodup) (hq : FirstBeyond n t.qubits q) :
    TermRejected width n k t (.qubitOutOfRange q n (some "pauli_rotation"))

/-- The rotation of a term by its weight times `scale`: unlabelled, on the qubits of the term in
their order, without controls. -/
def rotationGate (scale : R) (t : PauliTerm R) : Gate R :=
  { kind := .rotation t.paulis (t.coef.re * scale), targets := t.qubits, controls := [], label := none }

section Checks

variable {width n k : ℕ} {scale : R} {t : PauliTerm R}

/-- A weight that counts as real is read as its real part. -/
theorem realCoef_eq_ok {x : R} : t.realCoef k = .ok x ↔
    (∃ y, t.realCoef k = .ok y) ∧ x = t.coef.re := by
  unfold PauliTerm.realCoef
  split <;> simp [eq_comm]

/-- A weight without imaginary part counts as real, if zero is no more than rounding noise. -/
theorem realCoef_of_im_zero (hzero : Scalar.less Scalar.tolerance (Scalar.abs (0 : R)) = false)
    (him : t.coef.im = 0) : ∃ x, t.realCoef k = .ok x := by
  rw [PauliTerm.realCoef, him, hzero]
  exact ⟨_, rfl⟩

theorem realCoef_eq_error {e : CircuitError R} : t.realCoef k = .error e ↔
    (¬ ∃ x, t.realCoef k = .ok x) ∧ e = .malformedTerm k (.notReal t.coef) := by
  unfold PauliTerm.realCoef
  split <;> simp [eq_comm]

theorem operands_rotation (ps : List Pauli) (angle : R) (qs : List Qubit) :
    QuantumGate.operands
      ({ kind := .rotation ps angle, targets := qs, controls := [] } : Gate R) = qs :=
  List.append_nil qs

/-- **A term is lowered exactly if it passes all checks**, and then to its rotation. -/
theorem termRotation_eq_ok {g : Gate R} : termRotation width n scale k t = .ok g ↔
    TermAccepted width n k t ∧ g = rotationGate scale t := by
  simp only [termRotation, bind_eq_ok, pure_eq_ok]
  constructor
  · rintro ⟨_, hvalid, x, hx, g', hbuild, _, hcheck, rfl⟩
    obtain ⟨hlen, hwidth⟩ := validate_eq_ok.mp hvalid
    obtain ⟨hreal, rfl⟩ := realCoef_eq_ok.mp hx
    obtain ⟨hnodup, rfl⟩ := (build_rotation_eq_ok hlen).mp hbuild
    rw [operands_rotation] at hcheck
    exact ⟨⟨hlen, hwidth, hreal, hnodup, checkOperands_eq_ok.mp hcheck⟩, rfl⟩
  · rintro ⟨h, rfl⟩
    refine ⟨(), validate_eq_ok.mpr ⟨h.lengths, h.inHamiltonian⟩, _, realCoef_eq_ok.mpr ⟨h.real, rfl⟩,
      _, (build_rotation_eq_ok h.lengths).mpr ⟨h.distinct, rfl⟩, (), ?_, rfl⟩
    rw [operands_rotation]
    exact checkOperands_eq_ok.mpr h.inCircuit

/-- **A term is refused with the error of the first check it fails.** -/
theorem termRotation_eq_error {e : CircuitError R} : termRotation width n scale k t = .error e ↔
    TermRejected width n k t e := by
  simp only [termRotation, bind_eq_error, pure_ne_error, and_false, exists_false, or_false]
  constructor
  · rintro (hvalid | ⟨_, hvalid, hreal | ⟨x, hx, hbuild | ⟨g, hbuild, hcheck⟩⟩⟩)
    · rcases validate_eq_error.mp hvalid with ⟨hlen, rfl⟩ | ⟨hlen, q, hq, rfl⟩
      · exact .lengths hlen
      · exact .beyondHamiltonian hlen hq
    all_goals obtain ⟨hlen, hwidth⟩ := validate_eq_ok.mp hvalid
    · obtain ⟨hno, rfl⟩ := realCoef_eq_error.mp hreal
      exact .notReal hlen hwidth hno
    · obtain ⟨q, hq, rfl⟩ := (build_rotation_eq_error hlen).mp hbuild
      exact .repeated hlen hwidth ⟨x, hx⟩ hq
    · obtain ⟨hnodup, rfl⟩ := (build_rotation_eq_ok hlen).mp hbuild
      rw [operands_rotation] at hcheck
      obtain ⟨q, hq, rfl⟩ := checkOperands_eq_error.mp hcheck
      exact .beyondCircuit hlen hwidth ⟨x, hx⟩ hnodup hq
  · intro h
    cases h with
    | lengths hlen => exact .inl (validate_eq_error.mpr (.inl ⟨hlen, rfl⟩))
    | beyondHamiltonian hlen hq =>
      exact .inl (validate_eq_error.mpr (.inr ⟨hlen, _, hq, rfl⟩))
    | notReal hlen hwidth hno =>
      exact .inr ⟨(), validate_eq_ok.mpr ⟨hlen, hwidth⟩, .inl (realCoef_eq_error.mpr ⟨hno, rfl⟩)⟩
    | repeated hlen hwidth hreal hq =>
      obtain ⟨x, hx⟩ := hreal
      refine .inr ⟨(), validate_eq_ok.mpr ⟨hlen, hwidth⟩, .inr ⟨x, hx, .inl ?_⟩⟩
      exact (build_rotation_eq_error hlen).mpr ⟨_, hq, rfl⟩
    | beyondCircuit hlen hwidth hreal hnodup hq =>
      obtain ⟨x, hx⟩ := hreal
      refine .inr ⟨(), validate_eq_ok.mpr ⟨hlen, hwidth⟩, .inr ⟨x, hx, .inr ⟨
        { kind := .rotation t.paulis (x * scale), targets := t.qubits, controls := [] }, ?_, ?_⟩⟩⟩
      · exact (build_rotation_eq_ok hlen).mpr ⟨hnodup, rfl⟩
      · rw [operands_rotation]
        exact checkOperands_eq_error.mpr ⟨_, hq, rfl⟩

end Checks

/-! ### All terms -/

section Terms

variable {h : Hamiltonian R} {n : ℕ} {scale : R}

theorem termRotations_eq_ok {gs : List (Gate R)} : termRotations h n scale = .ok gs ↔
    (∀ k t, h.terms[k]? = some t → TermAccepted h.qubitCount n k t) ∧
      gs = h.terms.map (rotationGate scale) := by
  have hmap : h.terms.zipIdx.map (fun a => rotationGate scale a.1) =
      h.terms.map (rotationGate scale) := by
    conv_rhs => rw [← List.zipIdx_map_fst 0 h.terms, List.map_map]
    rfl
  rw [termRotations, mapM_eq_ok_map (P := fun a => TermAccepted h.qubitCount n a.2 a.1)
    (r := fun a => rotationGate scale a.1) fun a g => termRotation_eq_ok, hmap]
  simp only [Prod.forall, List.mk_mem_zipIdx_iff_getElem?]
  rw [forall_comm]

theorem termRotations_eq_error {e : CircuitError R} : termRotations h n scale = .error e ↔
    ∃ k t, h.terms[k]? = some t ∧ TermRejected h.qubitCount n k t e ∧
      ∀ j < k, ∀ t', h.terms[j]? = some t' → TermAccepted h.qubitCount n j t' := by
  have hget : ∀ (k : ℕ) (a : PauliTerm R × ℕ),
      h.terms.zipIdx[k]? = some a ↔ h.terms[k]? = some a.1 ∧ a.2 = k := by
    rintro k ⟨t, i⟩
    rw [List.getElem?_zipIdx, Option.map_eq_some_iff, Nat.zero_add]
    simp [eq_comm]
  rw [termRotations, mapM_eq_error]
  constructor
  · rintro ⟨k, ⟨t, i⟩, hk, herror, hfirst⟩
    obtain ⟨hk, rfl⟩ := (hget k _).mp hk
    refine ⟨i, t, hk, termRotation_eq_error.mp herror, fun j hj t' ht' => ?_⟩
    obtain ⟨g, hg⟩ := hfirst j (t', j) hj ((hget j _).mpr ⟨ht', rfl⟩)
    exact (termRotation_eq_ok.mp hg).1
  · rintro ⟨k, t, hk, hrejected, hfirst⟩
    refine ⟨k, (t, k), (hget k _).mpr ⟨hk, rfl⟩, termRotation_eq_error.mpr hrejected, ?_⟩
    rintro j ⟨t', i⟩ hj ht'
    obtain ⟨ht', rfl⟩ := (hget j _).mp ht'
    exact ⟨_, termRotation_eq_ok.mpr ⟨hfirst i hj t' ht', rfl⟩⟩

end Terms

/-! ### The circuit -/

theorem repeated_eq {α : Type} (r : ℕ) (as : List α) :
    repeated r as = (List.replicate r as).flatten := by
  unfold repeated
  split
  · rename_i h
    rw [List.isEmpty_iff.mp h]
    simp
  · rfl

section Lower

variable {γ : Type} [CarriesGates γ R] {c c' : Circuit γ} {h : Hamiltonian R} {angle : R}
  {repeats : ℕ}

theorem lower_eq_ok : c.lower h angle repeats = .ok c' ↔
    (∀ k t, h.terms[k]? = some t → TermAccepted h.qubitCount c.qubitCount k t) ∧
      c' = c.append (List.replicate (chosenRepeats angle h.qubitCount repeats)
        (h.terms.map (rotationGate
          (angle / Scalar.ofNat (chosenRepeats angle h.qubitCount repeats))))).flatten := by
  simp only [Circuit.lower, bind_eq_ok, pure_eq_ok, termRotations_eq_ok, repeated_eq]
  constructor
  · rintro ⟨_, ⟨haccepted, rfl⟩, rfl⟩
    exact ⟨haccepted, rfl⟩
  · rintro ⟨haccepted, rfl⟩
    exact ⟨_, ⟨haccepted, rfl⟩, rfl⟩

theorem lower_eq_error {e : CircuitError R} : c.lower h angle repeats = .error e ↔
    ∃ k t, h.terms[k]? = some t ∧ TermRejected h.qubitCount c.qubitCount k t e ∧
      ∀ j < k, ∀ t', h.terms[j]? = some t' → TermAccepted h.qubitCount c.qubitCount j t' := by
  simp only [Circuit.lower, bind_eq_error, pure_ne_error, and_false, exists_false, or_false,
    termRotations_eq_error]

end Lower

/-- **The outcome of lowering a Hamiltonian.** It succeeds exactly if every term is accepted. Then
the circuit is followed by one slice of rotations for each repeat, in term order, and by nothing
else. Otherwise the circuit is what it was, and the error is that of the first term refused. -/
theorem lower_outcome {γ : Type} [CarriesGates γ R] (c : Circuit γ) (h : Hamiltonian R) (angle : R)
    (repeats : ℕ) :
    let r := if repeats = 0 then defaultRepeats angle h.qubitCount else repeats
    let slice : List γ :=
      h.terms.map fun t => CarriesGates.ofGate (rotationGate (angle / Scalar.ofNat r) t)
    ((∃ c', c.lower h angle repeats = .ok c') ↔
      ∀ k t, h.terms[k]? = some t → TermAccepted h.qubitCount c.qubitCount k t) ∧
    (∀ c', c.lower h angle repeats = .ok c' →
      c'.qubitCount = c.qubitCount ∧ c'.gates = c.gates ++ (List.replicate r slice).flatten ∧
        c'.size = c.size + r * h.terms.length) ∧
    ∀ e, c.lower h angle repeats = .error e →
      c.edits [.lower h angle repeats] = c ∧
      ∃ k t, h.terms[k]? = some t ∧ TermRejected h.qubitCount c.qubitCount k t e ∧
        ∀ j < k, ∀ t', h.terms[j]? = some t' → TermAccepted h.qubitCount c.qubitCount j t' := by
  intro r slice
  have hr : chosenRepeats angle h.qubitCount repeats = r := rfl
  refine ⟨⟨?_, ?_⟩, ?_, ?_⟩
  · rintro ⟨c', hc'⟩
    exact (lower_eq_ok.mp hc').1
  · exact fun haccepted => ⟨_, lower_eq_ok.mpr ⟨haccepted, rfl⟩⟩
  · intro c' hc'
    obtain ⟨-, rfl⟩ := lower_eq_ok.mp hc'
    have hgates : (List.replicate r (h.terms.map
        (rotationGate (angle / Scalar.ofNat r)))).flatten.map CarriesGates.ofGate =
        (List.replicate r slice).flatten := by
      rw [List.map_flatten, List.map_replicate, List.map_map]
      rfl
    rw [hr]
    refine ⟨rfl, by rw [Circuit.append, hgates], ?_⟩
    rw [Circuit.append, hgates]
    simp [Circuit.size, slice]
  · intro e he
    exact ⟨Circuit.edits_of_error he, lower_eq_error.mp he⟩

end GateCircuit
