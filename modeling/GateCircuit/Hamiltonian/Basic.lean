/-
# Hamiltonians

A Hamiltonian is a sum of weighted Pauli strings on a register.

Key definitions: `Hamiltonian`, `Hamiltonian.lambda`, `Hamiltonian.validate`.
-/
import GateCircuit.Hamiltonian.Term

namespace GateCircuit

/-- A sum of terms on a register of `qubitCount` qubits. -/
structure Hamiltonian (R : Type) where
  qubitCount : Nat
  terms : List (PauliTerm R) := []
  deriving BEq, DecidableEq, Repr

namespace Hamiltonian

variable {R : Type}

/-- The Hamiltonian with one more term at the end. -/
def push (h : Hamiltonian R) (t : PauliTerm R) : Hamiltonian R :=
  { h with terms := h.terms ++ [t] }

/-- Whether every term is diagonal in the computational basis. -/
def isDiagonal (h : Hamiltonian R) : Bool := h.terms.all PauliTerm.isDiagonal

/-- Checks every term against the register, first to last. -/
def validate (h : Hamiltonian R) : Except (CircuitError R) Unit :=
  h.terms.zipIdx.forM fun (t, k) => t.validate k h.qubitCount

/-- The sum of the absolute values of all weights, which bounds the Hamiltonian's norm. -/
def lambda [Scalar R] (h : Hamiltonian R) : R :=
  h.terms.foldl (fun total t => total + t.coef.norm) 0

end Hamiltonian
end GateCircuit
