/-
# What can go wrong with gates, circuits and states

One type of errors for building gates, editing and running circuits, and lowering Hamiltonians.
An error holds its cause; `CircuitError.message` words it.

Key definitions: `TermFault`, `CircuitError`, `CircuitError.message`.
-/
import GateCircuit.Amplitude
import GateCircuit.Double.Shortest
import GateCircuit.Qubit

namespace GateCircuit

/-- Why a Hamiltonian term cannot be turned into a gate. -/
inductive TermFault (R : Type) where
  /-- the term lists different numbers of qubits and of operators -/
  | unequalLists (qubits paulis : Nat)
  /-- the weight has an imaginary part -/
  | notReal (coef : Amplitude R)
  deriving DecidableEq, Repr

/-- The errors of gates, circuits and states. -/
inductive CircuitError (R : Type) where
  /-- a position beyond the gate list -/
  | indexOutOfRange (index size : Nat)
  /-- no sub-range of the gate list -/
  | invalidRange (start stop size : Nat)
  /-- a qubit beyond the register, of a named gate if the gate is known -/
  | qubitOutOfRange (qubit : Qubit) (qubitCount : Nat) (gate : Option String)
  /-- an operand that occurs twice -/
  | duplicateQubit (qubit : Qubit) (gate : Option String)
  /-- a gate with the wrong number of targets -/
  | qubitCountMismatch (gate : String) (expected got : Nat)
  /-- a gate that needs a target and has none -/
  | noQubits (gate : String)
  /-- a matrix whose number of entries does not fit its targets -/
  | invalidMatrix (expected got : Nat)
  /-- a term that is not diagonal where only diagonal ones are lowered -/
  | nonDiagonalTerm (term : Nat)
  /-- a term that is no rotation -/
  | malformedTerm (term : Nat) (fault : TermFault R)
  /-- a state with fewer qubits than the circuit -/
  | stateTooSmall (required available : Nat)
  /-- a number of amplitudes, or an index into them, that no register has -/
  | invalidDimension (dimension : Nat)
  /-- a circuit without qubits -/
  | emptyRegister
  /-- more qubits than a state or a matrix can be written out for -/
  | tooManyQubits (requested limit : Nat)
  deriving DecidableEq, Repr

/-- A complex number of doubles as text: the imaginary part always with a sign, and a minus sign
only in front of a part below zero. -/
def Amplitude.text (a : Amplitude Float) : String :=
  let part (x : Float) : String := Double.text (if x < 0 then -x else x)
  (if a.re < 0 then "-" else "") ++ part a.re ++ (if a.im < 0 then "-" else "+") ++ part a.im ++ "i"

namespace TermFault

/-- The wording of a fault. -/
def message : TermFault Float → String
  | unequalLists qubits paulis => s!"{qubits} qubit indices but {paulis} Pauli ids"
  | notReal coef => "coefficient " ++ coef.text ++ " is not real"

end TermFault

namespace CircuitError

/-- The gate that an operand error names, in brackets. -/
def gateNote : Option String → String
  | some name => s!" (gate: {name})"
  | none => ""

/-- The message of an error. -/
def message : CircuitError Float → String
  | indexOutOfRange index size => s!"Gate index {index} out of range for circuit with {size} gates"
  | invalidRange start stop size =>
    s!"Invalid gate range [{start}, {stop}) for circuit with {size} gates"
  | qubitOutOfRange qubit qubitCount gate =>
    "Qubit " ++ qubit.text ++ s!" out of range for {qubitCount} qubits" ++ gateNote gate
  | duplicateQubit qubit gate =>
    "Duplicate qubit " ++ qubit.text ++ " in operation" ++ gateNote gate
  | qubitCountMismatch gate expected got => s!"Gate '{gate}' requires {expected} qubits, got {got}"
  | noQubits gate => s!"Gate '{gate}' acts on no qubits"
  | invalidMatrix expected got => s!"Matrix has {got} entries, expected {expected}"
  | nonDiagonalTerm term =>
    s!"Hamiltonian term {term} is not diagonal in the computational basis"
  | malformedTerm term fault => s!"Malformed Hamiltonian term {term}: " ++ fault.message
  | stateTooSmall required available =>
    s!"Circuit needs {required} qubits but state only has {available}"
  | invalidDimension dimension => s!"State dimension {dimension} is not a non-zero power of two"
  | emptyRegister => "Circuit must have at least one qubit"
  | tooManyQubits requested limit => s!"{requested} qubits requested, at most {limit} supported"

end CircuitError
end GateCircuit
