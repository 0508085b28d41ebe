/-
# Operands as bit masks

A kernel reads its operands as masks over basis indices. A qubit beyond the register is refused,
and so is a qubit that has occurred before, a control that is also a target included.

Key definitions: `operandMask`, `Operands`, `StateVector.operands`.
-/
import GateCircuit.StateVector.Basic

namespace GateCircuit

/-- Adds the bits of `qubits` to `mask`; refuses the first qubit that is out of range or whose bit
is already there. -/
def operandMask {R : Type} (qubitCount : Nat) : Nat → List Qubit → Except (CircuitError R) Nat
  | mask, [] => .ok mask
  | mask, q :: qs =>
    if qubitCount ≤ q then .error (.qubitOutOfRange q qubitCount none)
    else if mask.testBit q then .error (.duplicateQubit q none)
    else operandMask qubitCount (mask ||| q.mask) qs

/-- The bits of the targets and of the controls of a kernel call. -/
structure Operands where
  targets : Nat
  controls : Nat
  deriving DecidableEq, Repr

namespace Operands

/-- Whether all controls are set in the basis index `b`. -/
def isActive (o : Operands) (b : Nat) : Bool := b &&& o.controls == o.controls

end Operands

namespace StateVector

variable {R : Type}

/-- The masks of a kernel call on a state. -/
def operands (s : StateVector R) (targets controls : List Qubit) :
    Except (CircuitError R) Operands := do
  let targetMask ← operandMask s.qubitCount 0 targets
  let fullMask ← operandMask s.qubitCount targetMask controls
  pure { targets := targetMask, controls := fullMask ^^^ targetMask }

end StateVector
end GateCircuit
