/-
# Lowering Hamiltonians to circuits

The evolution under a Hamiltonian is appended to a circuit as rotations about the Pauli strings of
its terms. A diagonal Hamiltonian needs one rotation per term. For any other one the evolution is
split into repeats: each applies one rotation per term, in term order, by an equal share of the
angle. All rotations are built and checked before any is appended. A term without qubits is a
constant offset and becomes a rotation without operands, a global phase.

Key definitions: `defaultRepeats`, `Circuit.termRotation`, `Circuit.termRotations`,
`Circuit.lowerDiagonal`, `Circuit.lower`.
-/
import GateCircuit.Circuit.Basic

namespace GateCircuit

variable {R : Type} [Scalar R]

/-- The number of repeats where none is given: a hundred per unit of angle and qubit, rounded up,
and at least one. -/
def defaultRepeats (angle : R) (qubitCount : Nat) : Nat :=
  let share := Scalar.ceil (angle * Scalar.ofNat qubitCount * Scalar.ofNat 100)
  if Scalar.isNaN share || Scalar.less share 1 then 1 else Scalar.toCount share

/-- The number of repeats meant by `repeats`, where zero asks for the default. -/
def chosenRepeats (angle : R) (qubitCount repeats : Nat) : Nat :=
  if repeats = 0 then defaultRepeats angle qubitCount else repeats

/-- A list repeated `n` times. -/
def repeated {α : Type} (n : Nat) (as : List α) : List α :=
  if as.isEmpty then [] else (List.replicate n as).flatten

/-- The rotation for the term at `position` of a Hamiltonian on `width` qubits: by its weight times
`scale`, inside a register of `qubitCount` qubits. -/
def termRotation (width qubitCount : Nat) (scale : R) (position : Nat) (t : PauliTerm R) :
    Except (CircuitError R) (Gate R) := do
  t.validate position width
  let coef ← t.realCoef position
  let g ← (Recipe.rotation t.qubits t.paulis (coef * scale)).build
  checkOperands qubitCount (QuantumGate.name g) (QuantumGate.operands g)
  pure g

/-- The rotations for all terms of a Hamiltonian, up to the first that cannot be built. -/
def termRotations (h : Hamiltonian R) (qubitCount : Nat) (scale : R) :
    Except (CircuitError R) (List (Gate R)) :=
  h.terms.zipIdx.mapM fun (t, k) => termRotation h.qubitCount qubitCount scale k t

namespace Circuit

variable {γ : Type} [CarriesGates γ R]

/-- The circuit with gates appended that have been checked already. -/
def append (c : Circuit γ) (gs : List (Gate R)) : Circuit γ :=
  { c with gates := c.gates ++ gs.map CarriesGates.ofGate }

/-- Appends the evolution under a diagonal Hamiltonian: a rotation per term, by its weight times
`angle`. -/
def lowerDiagonal (c : Circuit γ) (h : Hamiltonian R) (angle : R) :
    Except (CircuitError R) (Circuit γ) := do
  let gs ← termRotations h c.qubitCount angle
  match gs.findIdx? (!QuantumGate.isDiagonal ·) with
  | some term => throw (.nonDiagonalTerm term)
  | none => pure (c.append gs)

/-- Appends the evolution under a Hamiltonian in `repeats` equal steps, or in the default number of
them if `repeats` is zero. -/
def lower (c : Circuit γ) (h : Hamiltonian R) (angle : R) (repeats : Nat) :
    Except (CircuitError R) (Circuit γ) := do
  let count := chosenRepeats angle h.qubitCount repeats
  let step ← termRotations h c.qubitCount (angle / Scalar.ofNat count)
  pure (c.append (repeated count step))

end Circuit
end GateCircuit
