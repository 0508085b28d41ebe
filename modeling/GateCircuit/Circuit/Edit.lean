/-
# Edits of a circuit

Everything that can be done to the gate list of a circuit, as data. `Circuit.edit` carries an edit
out; `Circuit.edits` carries out a list of them and skips those that fail.

Key definitions: `Edit`, `Circuit.edit`, `Circuit.edits`.
-/
import GateCircuit.Lowering

namespace GateCircuit

/-- A change to the gate list of a circuit. -/
inductive Edit (γ R : Type) where
  /-- put a gate at the end -/
  | push (gate : γ)
  /-- put a gate before the one at `index` -/
  | insert (index : Nat) (gate : γ)
  /-- take the gate at `index` out -/
  | erase (index : Nat)
  /-- build a gate and put it at the end -/
  | add (recipe : Recipe R)
  /-- the Pauli string of a term -/
  | addTermPauli (term : PauliTerm R)
  /-- the rotation of a term -/
  | addTermRotation (term : PauliTerm R)
  /-- the evolution under a diagonal Hamiltonian -/
  | lowerDiagonal (hamiltonian : Hamiltonian R) (angle : R)
  /-- the evolution under a Hamiltonian in repeated steps -/
  | lower (hamiltonian : Hamiltonian R) (angle : R) (repeats : Nat)

namespace Circuit

variable {γ R : Type} [Scalar R] [CarriesGates γ R]

/-- The circuit after an edit. -/
def edit (c : Circuit γ) : Edit γ R → Except (CircuitError R) (Circuit γ)
  | .push gate => c.push gate
  | .insert index gate => c.insert index gate
  | .erase index => c.erase index
  | .add recipe => c.add recipe
  | .addTermPauli term => c.addTermPauli term
  | .addTermRotation term => c.addTermRotation term
  | .lowerDiagonal hamiltonian angle => c.lowerDiagonal hamiltonian angle
  | .lower hamiltonian angle repeats => c.lower hamiltonian angle repeats

/-- The circuit after a list of edits; one that fails changes nothing. -/
def edits (c : Circuit γ) (list : List (Edit γ R)) : Circuit γ :=
  list.foldl
    (fun c e =>
      match c.edit e with
      | .ok after => after
      | .error _ => c)
    c

end Circuit
end GateCircuit
