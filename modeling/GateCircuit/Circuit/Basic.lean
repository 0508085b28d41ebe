/-
# Circuits

A circuit is a list of gates, first to last, on a register of fixed width. Every gate is checked
against the register before it gets in. An operation that fails yields no circuit, so the old one
is kept as it was.

Key definitions: `Circuit`, `Circuit.new`, `Circuit.push`, `Circuit.insert`, `Circuit.erase`,
`Circuit.add`.
-/
import GateCircuit.Gate.Recipe
import GateCircuit.Hamiltonian.Basic

namespace GateCircuit

/-- Gates in the order of their application, on `qubitCount` qubits. -/
structure Circuit (γ : Type) where
  qubitCount : Nat
  gates : List γ
  deriving Repr

/-- Checks that all `operands` of the gate called `name` lie inside a register. -/
def checkOperands {R : Type} (qubitCount : Nat) (name : String) (operands : List Qubit) :
    Except (CircuitError R) Unit :=
  match operands.find? (qubitCount ≤ ·) with
  | some q => .error (.qubitOutOfRange q qubitCount (some name))
  | none => .ok ()

namespace Circuit

variable {γ R : Type}

/-- The empty circuit on at least one qubit. -/
def new (qubitCount : Nat) : Except (CircuitError R) (Circuit γ) :=
  if qubitCount = 0 then .error .emptyRegister else .ok ⟨qubitCount, []⟩

/-- The number of gates. -/
def size (c : Circuit γ) : Nat := c.gates.length

/-- Whether the circuit has no gates. -/
def isEmpty (c : Circuit γ) : Bool := c.gates.isEmpty

/-- The gate at a position, if there is one. -/
def gate? (c : Circuit γ) (index : Nat) : Option γ := c.gates[index]?

/-- The circuit without the gate at `index`. -/
def erase (c : Circuit γ) (index : Nat) : Except (CircuitError R) (Circuit γ) :=
  if c.size ≤ index then .error (.indexOutOfRange index c.size)
  else .ok { c with gates := c.gates.eraseIdx index }

section Insert

variable [QuantumGate γ R]

/-- Checks a gate against the register. -/
def check (c : Circuit γ) (g : γ) : Except (CircuitError R) Unit :=
  checkOperands c.qubitCount (QuantumGate.name g) (QuantumGate.operands g)

/-- The circuit with one more gate at the end. -/
def push (c : Circuit γ) (g : γ) : Except (CircuitError R) (Circuit γ) := do
  c.check g
  pure { c with gates := c.gates ++ [g] }

/-- The circuit with a gate inserted before the one at `index`, or at the end. -/
def insert (c : Circuit γ) (index : Nat) (g : γ) : Except (CircuitError R) (Circuit γ) := do
  if c.size < index then throw (.indexOutOfRange index c.size)
  c.check g
  pure { c with gates := c.gates.take index ++ g :: c.gates.drop index }

end Insert

variable [Scalar R] [CarriesGates γ R]

/-- Builds a gate and puts it at the end. -/
def add (c : Circuit γ) (recipe : Recipe R) : Except (CircuitError R) (Circuit γ) := do
  let g ← recipe.build
  c.push (CarriesGates.ofGate g)

/-- Puts the Pauli string of a term at the end, without its weight. -/
def addTermPauli (c : Circuit γ) (t : PauliTerm R) : Except (CircuitError R) (Circuit γ) :=
  c.add (.pauli t.qubits t.paulis)

/-- Puts a rotation about the Pauli string of a term at the end, by its weight as an angle. -/
def addTermRotation (c : Circuit γ) (t : PauliTerm R) : Except (CircuitError R) (Circuit γ) := do
  let angle ← t.realCoef 0
  c.add (.rotation t.qubits t.paulis angle)

end Circuit
end GateCircuit
