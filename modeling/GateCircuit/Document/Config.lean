/-
# Hamiltonian descriptions

A description of a Hamiltonian is a record of its qubit count and its terms; a term is a record of
its weight, as a real and perhaps an imaginary part, and its operators as text. Other keys are
refused.

Key definitions: `HamiltonianConfig`, `HamiltonianConfig.ofNode?`, `HamiltonianConfig.hamiltonian`.
-/
import GateCircuit.Document.Node
import GateCircuit.Hamiltonian.Basic

namespace GateCircuit

/-- A term as described. -/
structure TermConfig where
  coef : Float
  imag : Float
  pauli : String
  deriving DecidableEq, Repr

/-- A Hamiltonian as described. -/
structure HamiltonianConfig where
  qubitCount : Nat
  terms : List TermConfig
  deriving DecidableEq, Repr

/-- The term of a description that cannot be read. -/
structure TermTextError where
  position : Nat
  text : String
  cause : PauliError
  deriving DecidableEq, Repr

variable {τ : Type} [DataNode τ]

/-- Reads a term; its imaginary part is zero if it is missing. -/
def TermConfig.ofNode? (node : τ) : Option TermConfig := do
  match ← readRecord ["coef", "imag", "pauli"] false node with
  | [some coef, imag, some pauli] =>
    some {
      coef := ← DataNode.number? coef
      imag := ← imag.elim (some 0) DataNode.number?
      pauli := ← DataNode.text? pauli }
  | _ => none

namespace HamiltonianConfig

/-- Reads a description; it has no terms if they are missing. -/
def ofNode? (node : τ) : Option HamiltonianConfig := do
  match ← readRecord ["qubit_count", "terms"] false node with
  | [some qubitCount, terms] =>
    let items ← terms.elim (some []) DataNode.items?
    some { qubitCount := ← DataNode.count? qubitCount, terms := ← items.mapM TermConfig.ofNode? }
  | _ => none

/-- The terms of a description, the first of them at `position`. -/
def readTerms : Nat → List TermConfig → Except TermTextError (List (PauliTerm Float))
  | _, [] => .ok []
  | position, t :: rest =>
    match PauliTerm.read ⟨t.coef, t.imag⟩ t.pauli with
    | .error cause => .error ⟨position, t.pauli, cause⟩
    | .ok term => (readTerms (position + 1) rest).map (term :: ·)

/-- The Hamiltonian that is described, or the first of its terms that cannot be read. -/
def hamiltonian (c : HamiltonianConfig) : Except TermTextError (Hamiltonian Float) :=
  (readTerms 0 c.terms).map fun terms => { qubitCount := c.qubitCount, terms }

end HamiltonianConfig
end GateCircuit
