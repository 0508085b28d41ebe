/-
# Hamiltonian terms

A term is a weighted Pauli string: a complex weight, a list of qubits, and one operator per qubit.
A term may be malformed; whoever uses it checks it first. In text a term's operators are written as
words, each operator before its qubit: `X 0 Z 3`.

Key definitions: `PauliTerm`, `PauliTerm.read`, `PauliTerm.realCoef`, `PauliTerm.validate`.
-/
import GateCircuit.Error
import GateCircuit.Pauli
import GateCircuit.Text.Words

namespace GateCircuit

/-- The Pauli string with `paulis[j]` on `qubits[j]`, times `coef`. -/
structure PauliTerm (R : Type) where
  qubits : List Qubit
  paulis : List Pauli
  coef : Amplitude R
  deriving BEq, DecidableEq, Repr

namespace PauliTerm

variable {R : Type}

/-- The term with the given pairs of qubit and operator. -/
def ofOps (coef : Amplitude R) (ops : List (Qubit × Pauli)) : PauliTerm R :=
  { qubits := ops.map Prod.fst, paulis := ops.map Prod.snd, coef }

/-- The pairs that a list of words writes: operator and qubit in turns. A list of odd length is cut
off at its last word. -/
def readPairs : List (List Char) → Except PauliError (List (Qubit × Pauli))
  | name :: index :: rest => do
    let pauli ← Pauli.read (String.ofList name)
    match readCount index with
    | none => throw (.invalidIndex (String.ofList index))
    | some q => return (q, pauli) :: (← readPairs rest)
  | _ => pure []

/-- Reads the operators of a term with a given weight. -/
def read (coef : Amplitude R) (text : String) : Except PauliError (PauliTerm R) :=
  let list := words text.toList
  if list.length % 2 = 1 then .error (.unpaired text) else (readPairs list).map (ofOps coef)

/-- Whether every operator is the identity. -/
def isIdentity (t : PauliTerm R) : Bool := t.paulis.all (· == .I)

/-- Whether every operator is diagonal in the computational basis. -/
def isDiagonal (t : PauliTerm R) : Bool := t.paulis.all Pauli.isDiagonal

/-- The highest qubit of a term, if it has any. -/
def maxQubit? (t : PauliTerm R) : Option Qubit := t.qubits.max?

/-- Checks that a term, at `position` in its Hamiltonian, fits a register. -/
def validate (t : PauliTerm R) (position qubitCount : Nat) : Except (CircuitError R) Unit :=
  if t.qubits.length ≠ t.paulis.length then
    .error (.malformedTerm position (.unequalLists t.qubits.length t.paulis.length))
  else
    match t.qubits.find? (qubitCount ≤ ·) with
    | some q => .error (.qubitOutOfRange q qubitCount none)
    | none => .ok ()

variable [Scalar R]

/-- The term `X` on one qubit. -/
def x (q : Qubit) (weight : R) : PauliTerm R := ofOps (.ofReal weight) [(q, .X)]

/-- The term `Z` on one qubit. -/
def z (q : Qubit) (weight : R) : PauliTerm R := ofOps (.ofReal weight) [(q, .Z)]

/-- The coupling of two qubits by `Z` on both. -/
def zz (first second : Qubit) (weight : R) : PauliTerm R :=
  ofOps (.ofReal weight) [(first, .Z), (second, .Z)]

/-- The weight as a real number; fails if its imaginary part is more than rounding noise. -/
def realCoef (t : PauliTerm R) (position : Nat) : Except (CircuitError R) R :=
  if Scalar.less Scalar.tolerance (Scalar.abs t.coef.im) then
    .error (.malformedTerm position (.notReal t.coef))
  else .ok t.coef.re

end PauliTerm
end GateCircuit
