/-
# Running circuits

A circuit is run on any state that has enough qubits, as a whole or between two positions of its
gate list. The first gate that fails ends the run; what the gates before it did remains.

Key definitions: `applyAll`, `Circuit.runRange`, `Circuit.run`.
-/
import GateCircuit.Circuit.Basic

namespace GateCircuit

variable {γ σ R : Type} [QuantumGate γ R] [QuantumState σ R]

/-- Applies gates one after the other, up to the first that fails. -/
def applyAll : List γ → Update R σ
  | [] => fun s => .ok () s
  | g :: gs => fun s =>
    match QuantumGate.apply g s with
    | .ok _ after => applyAll gs after
    | .error e after => .error e after

namespace Circuit

/-- Applies the gates from position `start` up to but not including position `stop`. -/
def runRange (c : Circuit γ) (start stop : Nat) : Update R σ := fun s =>
  if stop < start ∨ c.size < stop then .error (.invalidRange start stop c.size) s
  else
    let available := QuantumState.qubitCount s
    if available < c.qubitCount then .error (.stateTooSmall c.qubitCount available) s
    else applyAll ((c.gates.drop start).take (stop - start)) s

/-- Applies all gates, first to last. -/
def run (c : Circuit γ) : Update R σ := c.runRange 0 c.size

end Circuit
end GateCircuit
