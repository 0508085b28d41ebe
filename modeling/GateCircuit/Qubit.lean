/-
# Qubits and basis indices

A register of `k` qubits has one basis state for every number of `k` bits, its basis index. Bit `q`
of the index is the state of qubit `q`.

Key definitions: `Qubit`, `Qubit.mask`, `dimension`.
-/

namespace GateCircuit

/-- A position in a register. -/
abbrev Qubit := Nat

namespace Qubit

/-- The text of a qubit. -/
def text (q : Qubit) : String := "q" ++ toString q

/-- The basis index in which only one qubit is set. -/
def mask (q : Qubit) : Nat := 1 <<< q

end Qubit

/-- The number of basis states of `k` qubits. -/
def dimension (k : Nat) : Nat := 1 <<< k

end GateCircuit
