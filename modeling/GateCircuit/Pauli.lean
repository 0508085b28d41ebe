/-
# Pauli operators

The four one-qubit Pauli operators, their numbers, letters and matrices. Text is read in upper or
lower case and written in upper case.

Key definitions: `Pauli`, `Pauli.ofId`, `Pauli.read`, `Pauli.matrix`.
-/
import GateCircuit.Amplitude

namespace GateCircuit

/-- A one-qubit Pauli operator. -/
inductive Pauli where
  | I
  | X
  | Y
  | Z
  deriving DecidableEq, Repr

/-- Why a number or a text names no Pauli operators. -/
inductive PauliError where
  /-- no operator has this number -/
  | unknownId (id : Nat)
  /-- no operator has this name -/
  | unknownName (name : String)
  /-- a list of operators and qubits has an odd number of words -/
  | unpaired (text : String)
  /-- a word that should be a qubit is none -/
  | invalidIndex (word : String)
  deriving DecidableEq, Repr

namespace PauliError

/-- The message of an error. -/
def message : PauliError → String
  | unknownId id => s!"Invalid Pauli id {id}, expected 0 (I), 1 (X), 2 (Y) or 3 (Z)"
  | unknownName name => s!"Invalid Pauli string: unknown Pauli operator '{name}'"
  | unpaired text => s!"Invalid Pauli string: expected '<pauli> <index>' pairs in '{text}'"
  | invalidIndex word => s!"Invalid Pauli string: invalid qubit index '{word}'"

end PauliError

namespace Pauli

/-- The number of an operator. -/
def id : Pauli → Nat
  | I => 0
  | X => 1
  | Y => 2
  | Z => 3

/-- The operator with a given number. -/
def ofId : Nat → Except PauliError Pauli
  | 0 => .ok I
  | 1 => .ok X
  | 2 => .ok Y
  | 3 => .ok Z
  | n => .error (.unknownId n)

/-- The letter of an operator. -/
def letter : Pauli → Char
  | I => 'I'
  | X => 'X'
  | Y => 'Y'
  | Z => 'Z'

/-- The operator that a letter names, in either case. -/
def ofLetter? : Char → Option Pauli
  | 'I' => some I
  | 'i' => some I
  | 'X' => some X
  | 'x' => some X
  | 'Y' => some Y
  | 'y' => some Y
  | 'Z' => some Z
  | 'z' => some Z
  | _ => none

/-- Reads an operator from a text that consists of its letter alone. -/
def read (text : String) : Except PauliError Pauli :=
  match text.toList with
  | [c] => (ofLetter? c).elim (.error (.unknownName text)) .ok
  | _ => .error (.unknownName text)

/-- Whether the operator is diagonal in the computational basis. -/
def isDiagonal : Pauli → Bool
  | I => true
  | Z => true
  | _ => false

/-- Whether the operator swaps the two basis states. -/
def flips : Pauli → Bool
  | X => true
  | Y => true
  | _ => false

/-- Whether the operator gives the upper basis state a sign. -/
def signs : Pauli → Bool
  | Y => true
  | Z => true
  | _ => false

variable {R : Type} [Scalar R]

/-- The row-major matrix of an operator. -/
def matrix : Pauli → Array (Amplitude R)
  | I => #[1, 0, 0, 1]
  | X => #[0, 1, 1, 0]
  | Y => #[0, -Amplitude.I, Amplitude.I, 0]
  | Z => #[1, 0, 0, -1]

end Pauli
end GateCircuit
