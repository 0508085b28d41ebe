/-
# Copies of gates and of circuits

A gate can be put into a circuit as a copy, so that the gate itself stays with its owner, and a circuit
can be copied together with its gates. How a gate is copied is up to the gates. The edits and the copies
are all the operations on a circuit.

Key definitions: `Circuit.copied`, `Operation`, `Circuit.operate`, `Circuit.operations`.
-/
import GateCircuit.Circuit.Edit

namespace GateCircuit

/-- An operation on a circuit. -/
inductive Operation (γ R : Type) where
  /-- a change to the gate list -/
  | edit (change : Edit γ R)
  /-- put a copy of a gate at the end -/
  | pushCopy (gate : γ)
  /-- put a copy of a gate before the one at `index` -/
  | insertCopy (index : Nat) (gate : γ)
  /-- go on with a copy of the circuit -/
  | copy

namespace Circuit

variable {γ R : Type} (copyGate : γ → γ)

/-- The circuit with a copy in place of every gate. -/
def copied (c : Circuit γ) : Circuit γ := { c with gates := c.gates.map copyGate }

variable [Scalar R] [CarriesGates γ R]

/-- The circuit with a copy of a gate inserted. The position is checked before the copy is made, and
once more when it is put in. -/
def insertCopy (c : Circuit γ) (index : Nat) (g : γ) : Except (CircuitError R) (Circuit γ) := do
  if c.size < index then throw (.indexOutOfRange index c.size)
  c.insert index (copyGate g)

/-- The circuit after an operation. -/
def operate (c : Circuit γ) : Operation γ R → Except (CircuitError R) (Circuit γ)
  | .edit change => c.edit change
  | .pushCopy gate => c.push (copyGate gate)
  | .insertCopy index gate => c.insertCopy copyGate index gate
  | .copy => .ok (c.copied copyGate)

/-- The circuit after a list of operations; one that fails changes nothing. -/
def operations (c : Circuit γ) (list : List (Operation γ R)) : Circuit γ :=
  list.foldl
    (fun c op =>
      match c.operate copyGate op with
      | .ok after => after
      | .error _ => c)
    c

end Circuit
end GateCircuit
