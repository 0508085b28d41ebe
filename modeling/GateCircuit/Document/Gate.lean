/-
# Gates and summaries as documents

A gate is written as a record of its kind and its operands; its label is left out if it has none. A
kind is tagged with its name, and so is a named gate that has angles.

Key definitions: `NamedGate.toJson`, `GateKind.toJson`, `Gate.toJson`, `CircuitSummary.toJson`.
-/
import GateCircuit.Circuit.Summary
import GateCircuit.Document.Hamiltonian

namespace GateCircuit

/-- A value under a tag. -/
def Json.tagged (tag : String) (value : Json) : Json := .ofFields [(tag, value)]

namespace NamedGate

/-- The tag of a one-qubit gate. -/
def oneQubitTag {R : Type} : OneQubitGate R → String
  | .id => "I"
  | .x => "X"
  | .y => "Y"
  | .z => "Z"
  | .h => "H"
  | .s => "S"
  | .sdg => "Sdag"
  | .sx => "SqrtX"
  | .sxdg => "SqrtXdag"
  | .sy => "SqrtY"
  | .sydg => "SqrtYdag"
  | .t => "T"
  | .tdg => "Tdag"
  | .p0 => "P0"
  | .p1 => "P1"
  | .rx _ => "Rx"
  | .ry _ => "Ry"
  | .rz _ => "Rz"
  | .u1 _ => "U1"
  | .u2 _ _ => "U2"
  | .u3 _ _ _ => "U3"

/-- The tag of a named gate. -/
def tag {R : Type} : NamedGate R → String
  | .single gate => oneQubitTag gate
  | .cx => "CNOT"
  | .cz => "CZ"
  | .swap => "Swap"

/-- A named gate: its tag, which holds its angle or the list of its angles if it has any. -/
def toJson (g : NamedGate Float) : Json :=
  match g.parameters with
  | [] => .ofText g.tag
  | [angle] => .tagged g.tag (.ofDouble angle)
  | angles => .tagged g.tag (.array (angles.map Json.ofDouble))

end NamedGate

/-- The kind of a gate under its tag. -/
def GateKind.toJson : GateKind Float → Json
  | .named gate => .tagged "Standard" gate.toJson
  | .pauli paulis => .tagged "Pauli" (.array (paulis.map Pauli.toJson))
  | .rotation paulis angle =>
    .tagged "PauliRotation"
      (.ofFields [("paulis", .array (paulis.map Pauli.toJson)), ("angle", .ofDouble angle)])
  | .dense matrix => .tagged "DenseMatrix" (.array (matrix.toList.map fun a => a.toJson))

/-- A gate as a record. -/
def Gate.toJson (g : Gate Float) : Json :=
  .ofFields
    ([("kind", g.kind.toJson),
      ("targets", .array (g.targets.map Json.ofNat)),
      ("controls", .array (g.controls.map Json.ofNat))] ++
      g.label.toList.map fun label => ("label", .ofText label))

/-- A summary as a record. -/
def CircuitSummary.toJson (s : CircuitSummary) : Json :=
  .ofFields
    [("qubit_count", .ofNat s.qubitCount),
      ("depth", .ofNat s.depth),
      ("gate_count", .ofNat s.gateCount),
      ("arity_counts", .array (s.arityCounts.map Json.ofNat)),
      ("is_clifford", .bool s.isClifford),
      ("is_gaussian", .bool s.isGaussian)]

end GateCircuit
