/-
# Depth

The depth of a circuit is the length of the longest chain of gates in which each shares a qubit
with the next. It is found in one pass: every qubit remembers the layer of its last gate, and a
gate lands one layer above the highest of its operands.

Key definitions: `Layers`, `Layers.land`, `depthOf`, `Circuit.depth`.
-/
import Std.Data.HashMap
import GateCircuit.Circuit.Basic

namespace GateCircuit

/-- The layer of the last gate on each qubit; a qubit without gates is on layer zero. -/
abbrev Layers := Std.HashMap Qubit Nat

namespace Layers

/-- The highest layer among `operands`, zero if there are none. -/
def top (layers : Layers) (operands : List Qubit) : Nat :=
  operands.foldl (fun highest q => max highest (layers.getD q 0)) 0

/-- The layers after a gate with these operands has landed on `layer`. -/
def land (layers : Layers) (operands : List Qubit) (layer : Nat) : Layers :=
  operands.foldl (fun layers q => layers.insert q layer) layers

end Layers

/-- The depth reached from given layers and a depth so far, by gates with these operands. -/
def depthFrom (layers : Layers) (depth : Nat) : List (List Qubit) → Nat
  | [] => depth
  | operands :: rest =>
    let layer := layers.top operands + 1
    depthFrom (layers.land operands layer) (max depth layer) rest

/-- The depth of gates with these operands, in order. -/
def depthOf (operandLists : List (List Qubit)) : Nat := depthFrom ∅ 0 operandLists

/-- The depth of a circuit. -/
def Circuit.depth {γ R : Type} [QuantumGate γ R] (c : Circuit γ) : Nat :=
  depthOf (c.gates.map QuantumGate.operands)

end GateCircuit
