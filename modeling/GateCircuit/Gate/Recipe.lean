/-
# Recipes for gates

A recipe names a gate and its operands as one writes them down; `Recipe.build` turns it into a gate
or says what is wrong with it.

Key definitions: `Recipe`, `Recipe.build`.
-/
import GateCircuit.Gate.Basic

namespace GateCircuit

/-- A gate as one asks for it. -/
inductive Recipe (R : Type) where
  /-- a one-qubit gate -/
  | single (gate : OneQubitGate R) (target : Qubit)
  /-- `x` on the target, if the control is set -/
  | cx (control target : Qubit)
  /-- `z` on the target, if the control is set -/
  | cz (control target : Qubit)
  /-- the exchange of two qubits -/
  | swap (first second : Qubit)
  /-- a row-major matrix with `2 ^ k` rows for `k` targets -/
  | dense (targets : List Qubit) (matrix : Array (Amplitude R))
  /-- Pauli operators, `paulis[j]` on `targets[j]` -/
  | pauli (targets : List Qubit) (paulis : List Pauli)
  /-- `exp (-i * angle / 2 * P)` for the Pauli string `P` -/
  | rotation (targets : List Qubit) (paulis : List Pauli) (angle : R)
  deriving DecidableEq, Repr

namespace Recipe

variable {R : Type}

/-- The gate that a recipe asks for. -/
def build : Recipe R → Except (CircuitError R) (Gate R)
  | single gate target => .ok (Gate.single gate target)
  | cx control target => Gate.make (.named .cx) [target] [control]
  | cz control target => Gate.make (.named .cz) [target] [control]
  | swap first second => Gate.make (.named .swap) [first, second] []
  | dense targets matrix => Gate.make (.dense matrix) targets []
  | pauli targets paulis => Gate.make (.pauli paulis) targets []
  | rotation targets paulis angle => Gate.make (.rotation paulis angle) targets []

end Recipe
end GateCircuit
