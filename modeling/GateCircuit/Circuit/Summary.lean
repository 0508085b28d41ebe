/-
# Summaries

A summary holds the size and the classification of a circuit. Its arity table counts the gates by
their number of operands, from one operand up to the largest number that occurs.

Key definitions: `tally`, `CircuitSummary`, `Circuit.summary`, `CircuitSummary.report`.
-/
import GateCircuit.Circuit.Depth

namespace GateCircuit

/-- A table of counts with entry `k` raised by one; the table grows as far as needed. -/
def tally : Nat → List Nat → List Nat
  | 0, [] => [1]
  | 0, n :: ns => (n + 1) :: ns
  | k + 1, [] => 0 :: tally k []
  | k + 1, n :: ns => n :: tally k ns

/-- How often each arity from one upwards occurs; arity zero is left out. -/
def arityTable (arities : List Nat) : List Nat :=
  arities.foldl
    (fun table arity =>
      match arity with
      | 0 => table
      | k + 1 => tally k table)
    []

/-- Size and classification of a circuit. -/
structure CircuitSummary where
  qubitCount : Nat
  depth : Nat
  gateCount : Nat
  /-- the number of gates with one operand, with two, and so on -/
  arityCounts : List Nat
  isClifford : Bool
  isGaussian : Bool
  deriving DecidableEq, Repr

namespace CircuitSummary

/-- The number of gates with exactly `k` operands, for `k` at least one. -/
def gatesWithArity (s : CircuitSummary) : Nat → Nat
  | 0 => 0
  | k + 1 => s.arityCounts.getD k 0

/-- A flag in a report. -/
def flag (b : Bool) : String := if b then "yes" else "no"

/-- A summary as text, a line per fact and an empty line at the end. -/
def report (s : CircuitSummary) : String :=
  let arityLine (entry : Nat × Nat) : String := s!"# of {entry.2 + 1} qubit gate: {entry.1}\n"
  "*** Quantum Circuit Info ***\n" ++
    s!"# of qubit: {s.qubitCount}\n" ++
    s!"# of step : {s.depth}\n" ++
    s!"# of gate : {s.gateCount}\n" ++
    String.join (s.arityCounts.zipIdx.map arityLine) ++
    "Clifford  : " ++ flag s.isClifford ++ "\n" ++
    "Gaussian  : " ++ flag s.isGaussian ++ "\n\n"

end CircuitSummary

namespace Circuit

variable {γ R : Type} [QuantumGate γ R]

/-- Whether every gate is classed as Clifford. -/
def isClifford (c : Circuit γ) : Bool := c.gates.all QuantumGate.isClifford

/-- Whether every gate is classed as Gaussian. -/
def isGaussian (c : Circuit γ) : Bool := c.gates.all QuantumGate.isGaussian

/-- The size and classification of a circuit. -/
def summary (c : Circuit γ) : CircuitSummary where
  qubitCount := c.qubitCount
  depth := c.depth
  gateCount := c.size
  arityCounts := arityTable (c.gates.map QuantumGate.arity)
  isClifford := c.isClifford
  isGaussian := c.isGaussian

end Circuit
end GateCircuit
