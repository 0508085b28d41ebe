/-
# State vectors as quantum states

The kernels of a state vector, gathered. A call that fails leaves the state as it was.

Key definition: `StateVector.perform`.
-/
import GateCircuit.Kernel
import GateCircuit.StateVector.Dense
import GateCircuit.StateVector.PauliString

namespace GateCircuit
namespace StateVector

variable {R : Type} [Scalar R]

/-- The state after a kernel call. -/
def perform (s : StateVector R) : KernelCall R → Except (CircuitError R) (StateVector R)
  | .matrix targets controls entries => s.applyMatrix targets controls entries
  | .pauli targets controls paulis => s.applyPauli targets controls paulis
  | .rotation targets controls paulis angle => s.applyRotation targets controls paulis angle

instance : QuantumState (StateVector R) R where
  qubitCount s := s.qubitCount
  perform call s :=
    match s.perform call with
    | .ok after => .ok () after
    | .error e => .error e s

end StateVector
end GateCircuit
