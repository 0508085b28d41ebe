/-
# Gates

A gate is an operation bound to its operands, with an optional label. `Gate.make` is the only
check of operands: a target at least, a matrix or a list of the right size, no operand twice.

Key definitions: `Gate`, `Gate.make`, `Gate.matrix`, `CarriesGates`.
-/
import GateCircuit.Gate.Kind
import GateCircuit.Kernel

namespace GateCircuit

/-- An operation bound to target and control qubits. -/
structure Gate (R : Type) where
  kind : GateKind R
  /-- the targets in the bit order of the matrix -/
  targets : List Qubit
  controls : List Qubit
  label : Option String := none
  deriving BEq, DecidableEq, Repr

/-- The first qubit of a list that occurs in `seen` or earlier in the list. -/
def firstRepeat (seen : List Qubit) : List Qubit → Option Qubit
  | [] => none
  | q :: qs => if q ∈ seen then some q else firstRepeat (q :: seen) qs

/-- The number of entries asked of a matrix on `k` targets. It is computed as a 64-bit shift by the
32-bit word `2 * k`, and saturates where the shift would leave the word. -/
def matrixSize (k : Nat) : Nat :=
  let shift := 2 * k % (maxCount + 1)
  if shift < 64 then 1 <<< shift else maxWord

namespace Gate

variable {R : Type}

/-- Whether an operation fits its number of targets. An error reports both numbers of targets as words
of 32 bits. -/
def checkSize (kind : GateKind R) (targets : List Qubit) : Except (CircuitError R) Unit :=
  let fits (expected : Nat) : Except (CircuitError R) Unit :=
    if targets.length = expected then .ok ()
    else
      .error (.qubitCountMismatch kind.name (expected % (maxCount + 1))
        (targets.length % (maxCount + 1)))
  match kind with
  | .named gate => fits gate.targetCount
  | .pauli paulis => fits paulis.length
  | .rotation paulis _ => fits paulis.length
  | .dense entries =>
    if entries.size = matrixSize targets.length then .ok ()
    else .error (.invalidMatrix (matrixSize targets.length) entries.size)

/-- Binds an operation to its operands. The empty Pauli string is allowed: it is the identity, or a
global phase when rotated about. -/
def make (kind : GateKind R) (targets controls : List Qubit) :
    Except (CircuitError R) (Gate R) := do
  if targets.isEmpty && !kind.isPauliString then throw (.noQubits kind.name)
  checkSize kind targets
  match firstRepeat [] (targets ++ controls) with
  | some q => throw (.duplicateQubit q (some kind.name))
  | none => pure { kind, targets, controls }

/-- A one-qubit gate on its target. There is nothing to check. -/
def single (gate : OneQubitGate R) (target : Qubit) : Gate R :=
  { kind := .named (.single gate), targets := [target], controls := [] }

/-- The gate with a label. -/
def withLabel (g : Gate R) (label : String) : Gate R := { g with label := some label }

variable [Scalar R]

/-- The row-major matrix on the targets. -/
def matrix (g : Gate R) : Except (CircuitError R) (Array (Amplitude R)) := g.kind.matrix

/-- Whether all entries of a matrix with `dim` rows off the diagonal are rounding noise. -/
def isDiagonalMatrix (dim : Nat) (entries : Array (Amplitude R)) : Bool :=
  (List.range entries.size).all fun k =>
    k / dim == k % dim || Scalar.atMost (entries.getD k 0).norm Scalar.tolerance

/-- Whether the gate is diagonal in the computational basis. -/
def isDiagonal (g : Gate R) : Bool :=
  match g.kind with
  | .named gate => gate.isDiagonal
  | .pauli paulis => paulis.all Pauli.isDiagonal
  | .rotation paulis _ => paulis.all Pauli.isDiagonal
  | .dense entries => isDiagonalMatrix (dimension g.targets.length) entries

/-- The kernel that applies the gate. -/
def kernel (g : Gate R) : KernelCall R :=
  match g.kind with
  | .named gate => .matrix g.targets g.controls gate.matrix
  | .pauli paulis => .pauli g.targets g.controls paulis
  | .rotation paulis angle => .rotation g.targets g.controls paulis angle
  | .dense entries => .matrix g.targets g.controls entries

instance : QuantumGate (Gate R) R where
  name g := g.kind.name
  targets g := g.targets
  controls g := g.controls
  action g := .ofCall g.kernel
  isClifford g := g.kind.isClifford
  isGaussian g := g.kind.isGaussian
  isDiagonal g := g.isDiagonal
  parameters g := g.kind.parameters

end Gate

/-- A type of gates that contains the gates above as they are, perhaps among others. -/
class CarriesGates (γ : Type) (R : outParam Type) [Scalar R] extends QuantumGate γ R where
  ofGate : Gate R → γ
  name_ofGate : ∀ g : Gate R, name (ofGate g) = QuantumGate.name g
  targets_ofGate : ∀ g : Gate R, targets (ofGate g) = g.targets
  controls_ofGate : ∀ g : Gate R, controls (ofGate g) = g.controls
  action_ofGate : ∀ g : Gate R, action (ofGate g) = QuantumGate.action g

instance {R : Type} [Scalar R] : CarriesGates (Gate R) R where
  ofGate g := g
  name_ofGate _ := rfl
  targets_ofGate _ := rfl
  controls_ofGate _ := rfl
  action_ofGate _ := rfl

end GateCircuit
