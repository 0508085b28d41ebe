/-
# States, gates, and what passes between them

A state offers three kernels: a matrix, a Pauli string, and a rotation about a Pauli string, each on
target qubits and conditioned on control qubits. Any type can be a state. Any type can be a gate:
it tells its operands and properties, and it acts on a state of any type by calling kernels. What a
gate does is a value, an `Action`, so that two states can be compared under the same gate.

Key definitions: `KernelCall`, `QuantumState`, `Action`, `Action.run`, `QuantumGate`.
-/
import GateCircuit.Error
import GateCircuit.Pauli

namespace GateCircuit

/-- One kernel with its arguments. Bit `j` of a matrix index is the basis state of `targets[j]`,
and `paulis[j]` acts on `targets[j]`; the kernel acts where all controls are set. -/
inductive KernelCall (R : Type) where
  /-- a row-major matrix on the targets -/
  | matrix (targets controls : List Qubit) (entries : Array (Amplitude R))
  /-- a Pauli string on the targets -/
  | pauli (targets controls : List Qubit) (paulis : List Pauli)
  /-- `exp (-i * angle / 2 * P)` for the Pauli string `P`; without targets a global phase -/
  | rotation (targets controls : List Qubit) (paulis : List Pauli) (angle : R)
  deriving DecidableEq, Repr

/-- A step on a state that may fail; a failing step also leaves a state behind. -/
abbrev Update (R σ : Type) := EStateM (CircuitError R) σ Unit

/-- A register of qubits that kernels act on. -/
class QuantumState (σ : Type) (R : outParam Type) where
  qubitCount : σ → Nat
  perform : KernelCall R → Update R σ

/-- What a gate does to a state: kernel calls one after the other, each chosen in the light of the
answers so far. -/
inductive Action (R : Type) where
  /-- the gate has been applied -/
  | done
  /-- the gate gives up -/
  | fail (error : CircuitError R)
  /-- look at the number of qubits of the state -/
  | readQubitCount (next : Nat → Action R)
  /-- call a kernel and go on, whether it succeeded or failed -/
  | call (kernel : KernelCall R) (next : Except (CircuitError R) Unit → Action R)

namespace Action

variable {R σ : Type}

/-- A single kernel call, whose failure is the failure of the gate. -/
def ofCall (kernel : KernelCall R) : Action R :=
  .call kernel fun
    | .ok _ => .done
    | .error e => .fail e

/-- Performs an action on a state. -/
def run [QuantumState σ R] : Action R → Update R σ
  | done => fun s => .ok () s
  | fail error => fun s => .error error s
  | readQubitCount next => fun s => (next (QuantumState.qubitCount s)).run s
  | call kernel next => fun s =>
    match QuantumState.perform kernel s with
    | .ok _ s => (next (.ok ())).run s
    | .error e s => (next (.error e)).run s

end Action

/-- An operation on target qubits, perhaps conditioned on control qubits. -/
class QuantumGate (γ : Type) (R : outParam Type) where
  name : γ → String
  /-- the qubits acted on, in the bit order of the matrix -/
  targets : γ → List Qubit
  /-- the qubits that must all be set for the gate to act -/
  controls : γ → List Qubit
  action : γ → Action R
  isClifford : γ → Bool
  isGaussian : γ → Bool
  /-- whether the gate is diagonal in the computational basis -/
  isDiagonal : γ → Bool
  /-- the angles of the gate -/
  parameters : γ → List R := fun _ => []

namespace QuantumGate

variable {γ R σ : Type} [QuantumGate γ R]

/-- The targets and then the controls. -/
def operands (g : γ) : List Qubit := targets g ++ controls g

/-- The number of operands. -/
def arity (g : γ) : Nat := (targets g).length + (controls g).length

/-- Applies a gate to a state. -/
def apply [QuantumState σ R] (g : γ) : Update R σ := (action g).run

/-- A gate as text: its name, its angles in brackets if it has any, its controls with an at sign,
its targets. -/
def text {γ : Type} [QuantumGate γ Float] (g : γ) : String :=
  let angles := (parameters g).map Double.text
  let shown := if angles.isEmpty then "" else "(" ++ ", ".intercalate angles ++ ")"
  let marked := (controls g).map fun q => " @" ++ q.text
  let plain := (targets g).map fun q => " " ++ q.text
  name g ++ shown ++ String.join marked ++ String.join plain

end QuantumGate
end GateCircuit
