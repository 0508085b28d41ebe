/-
# Circuits stay inside their register

Every gate is checked against the register before it gets into a circuit, one by one or, for the
rotations of a Hamiltonian, all of them beforehand. So all that an edit brings in lies inside the
register, and each edit keeps the operands of all gates there.

Key definitions: `FirstBeyond`, `Circuit.InRegister`, `Edit.Brings`.
Key theorems: `Circuit.edit_gates`, `Circuit.edit_inRegister`.
-/
import Mathlib
import GateCircuit.Circuit.Edit
import GateCircuit.Proofs.Outcome

namespace GateCircuit

open Outcome

/-! ### The check -/

/-- `q` is the first of the qubits that lies beyond a register of `n` qubits. -/
def FirstBeyond (n : ℕ) (qs : List Qubit) (q : Qubit) : Prop :=
  ∃ before after, qs = before ++ q :: after ∧ (∀ p ∈ before, p < n) ∧ n ≤ q

theorem find?_beyond_eq_some {n : ℕ} {qs : List Qubit} {q : Qubit} :
    qs.find? (n ≤ ·) = some q ↔ FirstBeyond n qs q := by
  rw [List.find?_eq_some_iff_append]
  constructor
  · rintro ⟨hq, before, after, heq, hbefore⟩
    exact ⟨before, after, heq, fun p hp => by simpa using hbefore p hp, by simpa using hq⟩
  · rintro ⟨before, after, heq, hbefore, hq⟩
    exact ⟨by simpa using hq, before, after, heq, fun p hp => by simpa using hbefore p hp⟩

theorem find?_beyond_eq_none {n : ℕ} {qs : List Qubit} :
    qs.find? (n ≤ ·) = none ↔ ∀ q ∈ qs, q < n := by
  simp

section Check

variable {R : Type} {n : ℕ} {name : String} {qs : List Qubit}

theorem checkOperands_eq_ok :
    checkOperands (R := R) n name qs = .ok () ↔ ∀ q ∈ qs, q < n := by
  rw [← find?_beyond_eq_none, checkOperands]
  cases qs.find? (n ≤ ·) <;> simp

/-- The check complains about the first operand beyond the register. -/
theorem checkOperands_eq_error {e : CircuitError R} :
    checkOperands n name qs = .error e ↔
      ∃ q, FirstBeyond n qs q ∧ e = .qubitOutOfRange q n (some name) := by
  simp only [← find?_beyond_eq_some, checkOperands]
  cases qs.find? (n ≤ ·) <;> simp [eq_comm]

end Check

/-! ### Lowered gates -/

theorem mem_repeated {α : Type} {n : ℕ} {as : List α} {a : α} (h : a ∈ repeated n as) : a ∈ as := by
  unfold repeated at h
  split at h
  · simp at h
  · obtain ⟨l, hl, ha⟩ := List.mem_flatten.mp h
    rwa [List.eq_of_mem_replicate hl] at ha

section Lowering

variable {R : Type} [Scalar R]

/-- A rotation that passes the checks has been built from its term, inside the circuit's register. -/
theorem termRotation_built {width n : ℕ} {scale : R} {k : ℕ} {t : PauliTerm R} {g : Gate R}
    (h : termRotation width n scale k t = .ok g) :
    (∃ x, (Recipe.rotation t.qubits t.paulis x).build = .ok g) ∧
      ∀ q ∈ QuantumGate.operands g, q < n := by
  simp only [termRotation, bind_eq_ok, pure_eq_ok] at h
  obtain ⟨_, -, x, -, g', hbuild, _, hcheck, rfl⟩ := h
  exact ⟨⟨_, hbuild⟩, checkOperands_eq_ok.mp hcheck⟩

theorem termRotations_built {ham : Hamiltonian R} {n : ℕ} {scale : R} {gs : List (Gate R)}
    (h : termRotations ham n scale = .ok gs) :
    ∀ g ∈ gs, (∃ t ∈ ham.terms, ∃ x, (Recipe.rotation t.qubits t.paulis x).build = .ok g) ∧
      ∀ q ∈ QuantumGate.operands g, q < n := by
  refine mapM_forall h fun a ha g hg => ?_
  obtain ⟨hbuild, hin⟩ := termRotation_built hg
  exact ⟨⟨a.1, List.fst_mem_of_mem_zipIdx ha, hbuild⟩, hin⟩

end Lowering

/-! ### Single changes -/

namespace Circuit

variable {γ R : Type}

/-- The operands of all gates lie inside the register. -/
def InRegister [QuantumGate γ R] (c : Circuit γ) : Prop :=
  ∀ g ∈ c.gates, ∀ q ∈ QuantumGate.operands g, q < c.qubitCount

theorem erase_eq_ok {c c' : Circuit γ} {index : ℕ} : c.erase (R := R) index = .ok c' ↔
    index < c.size ∧ c' = { c with gates := c.gates.eraseIdx index } := by
  unfold erase
  by_cases hindex : c.size ≤ index
  · simp [hindex]
  · simp [hindex, Nat.lt_of_not_le hindex, eq_comm]

section Insert

variable [QuantumGate γ R] {c c' : Circuit γ}

theorem push_eq_ok {g : γ} : c.push g = .ok c' ↔
    (∀ q ∈ QuantumGate.operands g, q < c.qubitCount) ∧ c' = { c with gates := c.gates ++ [g] } := by
  rw [push, bind_eq_ok]
  constructor
  · rintro ⟨_, hcheck, h⟩
    exact ⟨checkOperands_eq_ok.mp hcheck, (pure_eq_ok.mp h).symm⟩
  · rintro ⟨hin, rfl⟩
    exact ⟨(), checkOperands_eq_ok.mpr hin, rfl⟩

theorem insert_eq_ok {index : ℕ} {g : γ} : c.insert index g = .ok c' ↔
    index ≤ c.size ∧ (∀ q ∈ QuantumGate.operands g, q < c.qubitCount) ∧
      c' = { c with gates := c.gates.take index ++ g :: c.gates.drop index } := by
  unfold insert
  by_cases hindex : c.size < index
  · have hno : ¬ index ≤ c.size := Nat.not_le.mpr hindex
    simp [hindex, hno, throw, throwThe, MonadExceptOf.throw, bind, Except.bind]
  · rw [if_neg hindex, bind_eq_ok]
    constructor
    · rintro ⟨_, hcheck, h⟩
      exact ⟨Nat.le_of_not_lt hindex, checkOperands_eq_ok.mp hcheck, (pure_eq_ok.mp h).symm⟩
    · rintro ⟨-, hin, rfl⟩
      exact ⟨(), checkOperands_eq_ok.mpr hin, rfl⟩

end Insert

/-! ### What edits bring in -/

variable [Scalar R] [CarriesGates γ R] {c c' : Circuit γ}

theorem operands_ofGate (g : Gate R) :
    QuantumGate.operands (CarriesGates.ofGate g : γ) = QuantumGate.operands g := by
  rw [QuantumGate.operands, QuantumGate.operands, CarriesGates.targets_ofGate,
    CarriesGates.controls_ofGate]
  rfl

theorem add_eq_ok {recipe : Recipe R} : c.add recipe = .ok c' ↔
    ∃ b, recipe.build = .ok b ∧ c.push (CarriesGates.ofGate b) = .ok c' := bind_eq_ok

end Circuit

/-- The gates that an edit can put into a circuit: the one it holds, or one that is built for it. -/
inductive Edit.Brings {γ R : Type} [Scalar R] [CarriesGates γ R] : Edit γ R → γ → Prop
  | push (g : γ) : Brings (.push g) g
  | insert (index : ℕ) (g : γ) : Brings (.insert index g) g
  | add {recipe : Recipe R} {b : Gate R} (hbuild : recipe.build = .ok b) :
    Brings (.add recipe) (CarriesGates.ofGate b)
  | addTermPauli {t : PauliTerm R} {b : Gate R}
      (hbuild : (Recipe.pauli t.qubits t.paulis).build = .ok b) :
    Brings (.addTermPauli t) (CarriesGates.ofGate b)
  | addTermRotation {t : PauliTerm R} {x : R} {b : Gate R}
      (hbuild : (Recipe.rotation t.qubits t.paulis x).build = .ok b) :
    Brings (.addTermRotation t) (CarriesGates.ofGate b)
  | lowerDiagonal {h : Hamiltonian R} {angle x : R} {t : PauliTerm R} {b : Gate R}
      (ht : t ∈ h.terms) (hbuild : (Recipe.rotation t.qubits t.paulis x).build = .ok b) :
    Brings (.lowerDiagonal h angle) (CarriesGates.ofGate b)
  | lower {h : Hamiltonian R} {angle x : R} {repeats : ℕ} {t : PauliTerm R} {b : Gate R}
      (ht : t ∈ h.terms) (hbuild : (Recipe.rotation t.qubits t.paulis x).build = .ok b) :
    Brings (.lower h angle repeats) (CarriesGates.ofGate b)

namespace Circuit

variable {γ R : Type} [Scalar R] [CarriesGates γ R] {c c' : Circuit γ}

theorem push_gates {g : γ} (h : c.push g = .ok c') : c'.qubitCount = c.qubitCount ∧
    ∀ g' ∈ c'.gates, g' ∈ c.gates ∨
      (g' = g ∧ ∀ q ∈ QuantumGate.operands g', q < c.qubitCount) := by
  obtain ⟨hin, rfl⟩ := push_eq_ok.mp h
  refine ⟨rfl, fun g' hg' => ?_⟩
  rcases List.mem_append.mp hg' with hold | hnew
  · exact .inl hold
  · obtain rfl := List.mem_singleton.mp hnew
    exact .inr ⟨rfl, hin⟩

theorem insert_gates {index : ℕ} {g : γ} (h : c.insert index g = .ok c') :
    c'.qubitCount = c.qubitCount ∧
    ∀ g' ∈ c'.gates, g' ∈ c.gates ∨
      (g' = g ∧ ∀ q ∈ QuantumGate.operands g', q < c.qubitCount) := by
  obtain ⟨-, hin, rfl⟩ := insert_eq_ok.mp h
  refine ⟨rfl, fun g' hg' => ?_⟩
  rcases List.mem_append.mp hg' with hold | hnew
  · exact .inl (List.mem_of_mem_take hold)
  · rcases List.mem_cons.mp hnew with rfl | hold
    · exact .inr ⟨rfl, hin⟩
    · exact .inl (List.mem_of_mem_drop hold)

theorem add_gates {recipe : Recipe R} (h : c.add recipe = .ok c') :
    c'.qubitCount = c.qubitCount ∧
    ∀ g ∈ c'.gates, g ∈ c.gates ∨
      ((∃ b, recipe.build = .ok b ∧ g = CarriesGates.ofGate b) ∧
        ∀ q ∈ QuantumGate.operands g, q < c.qubitCount) := by
  obtain ⟨b, hbuild, hpush⟩ := add_eq_ok.mp h
  obtain ⟨hcount, hgates⟩ := push_gates hpush
  refine ⟨hcount, fun g hg => (hgates g hg).imp_right fun ⟨heq, hin⟩ => ?_⟩
  exact ⟨⟨b, hbuild, heq⟩, hin⟩

theorem append_gates {gs : List (Gate R)} {P : Gate R → Prop}
    (hgs : ∀ g ∈ gs, P g ∧ ∀ q ∈ QuantumGate.operands g, q < c.qubitCount) :
    ∀ g ∈ (c.append gs).gates, g ∈ c.gates ∨
      ((∃ b, P b ∧ g = CarriesGates.ofGate b) ∧
        ∀ q ∈ QuantumGate.operands g, q < c.qubitCount) := by
  intro g hg
  rcases List.mem_append.mp hg with hold | hnew
  · exact .inl hold
  · obtain ⟨b, hb, rfl⟩ := List.mem_map.mp hnew
    rw [operands_ofGate]
    exact .inr ⟨⟨b, (hgs b hb).1, rfl⟩, (hgs b hb).2⟩

/-- **What an edit does.** The register stays as wide as it was. A gate of the circuit was there before,
or the edit has brought it in, inside the register. -/
theorem edit_gates {e : Edit γ R} (h : c.edit e = .ok c') : c'.qubitCount = c.qubitCount ∧
    ∀ g ∈ c'.gates, g ∈ c.gates ∨
      (e.Brings g ∧ ∀ q ∈ QuantumGate.operands g, q < c.qubitCount) := by
  cases e with
  | push g =>
    obtain ⟨hcount, hgates⟩ := push_gates h
    refine ⟨hcount, fun g' hg' => (hgates g' hg').imp_right fun ⟨heq, hin⟩ => ?_⟩
    exact ⟨heq ▸ .push g, hin⟩
  | insert index g =>
    obtain ⟨hcount, hgates⟩ := insert_gates h
    refine ⟨hcount, fun g' hg' => (hgates g' hg').imp_right fun ⟨heq, hin⟩ => ?_⟩
    exact ⟨heq ▸ .insert index g, hin⟩
  | erase index =>
    obtain ⟨-, rfl⟩ := erase_eq_ok.mp h
    exact ⟨rfl, fun g hg => .inl (List.mem_of_mem_eraseIdx hg)⟩
  | add recipe =>
    obtain ⟨hcount, hgates⟩ := add_gates h
    refine ⟨hcount, fun g hg => (hgates g hg).imp_right ?_⟩
    rintro ⟨⟨b, hbuild, rfl⟩, hin⟩
    exact ⟨.add hbuild, hin⟩
  | addTermPauli t =>
    obtain ⟨hcount, hgates⟩ := add_gates h
    refine ⟨hcount, fun g hg => (hgates g hg).imp_right ?_⟩
    rintro ⟨⟨b, hbuild, rfl⟩, hin⟩
    exact ⟨.addTermPauli hbuild, hin⟩
  | addTermRotation t =>
    simp only [edit, addTermRotation, bind_eq_ok] at h
    obtain ⟨_, -, hadd⟩ := h
    obtain ⟨hcount, hgates⟩ := add_gates hadd
    refine ⟨hcount, fun g hg => (hgates g hg).imp_right ?_⟩
    rintro ⟨⟨b, hbuild, rfl⟩, hin⟩
    exact ⟨.addTermRotation hbuild, hin⟩
  | lowerDiagonal ham angle =>
    simp only [edit, lowerDiagonal, bind_eq_ok] at h
    obtain ⟨gs, hgs, h⟩ := h
    split at h
    · cases h
    · obtain rfl := pure_eq_ok.mp h
      refine ⟨rfl, fun g hg => (append_gates (termRotations_built hgs) g hg).imp_right ?_⟩
      rintro ⟨⟨b, ⟨t, ht, _, hbuild⟩, rfl⟩, hin⟩
      exact ⟨.lowerDiagonal ht hbuild, hin⟩
  | lower ham angle repeats =>
    simp only [edit, lower, bind_eq_ok, pure_eq_ok] at h
    obtain ⟨gs, hgs, rfl⟩ := h
    have hbuilt := fun b (hb : b ∈ repeated (chosenRepeats angle ham.qubitCount repeats) gs) =>
      termRotations_built hgs b (mem_repeated hb)
    refine ⟨rfl, fun g hg => (append_gates hbuilt g hg).imp_right ?_⟩
    rintro ⟨⟨b, ⟨t, ht, _, hbuild⟩, rfl⟩, hin⟩
    exact ⟨.lower ht hbuild, hin⟩

/-! ### The register after an edit -/

/-- **An edit keeps the gates inside the register**, and the register as wide as it was. -/
theorem edit_inRegister (hc : c.InRegister) {e : Edit γ R} (h : c.edit e = .ok c') :
    c'.InRegister ∧ c'.qubitCount = c.qubitCount := by
  obtain ⟨hcount, hgates⟩ := edit_gates h
  refine ⟨fun g hg => ?_, hcount⟩
  rw [hcount]
  rcases hgates g hg with hold | ⟨-, hin⟩
  · exact hc g hold
  · exact hin

/-- An edit that fails changes nothing. -/
theorem edits_of_error {e : Edit γ R} {err : CircuitError R} (h : c.edit e = .error err) :
    c.edits [e] = c := by
  simp only [edits, List.foldl_cons, List.foldl_nil, h]

end Circuit
end GateCircuit
