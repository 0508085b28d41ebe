/-
# What a gate does to its targets

A gate performs a named operation, a string of Pauli operators, a rotation about such a string, or
an arbitrary matrix. Bit `j` of a row or column index of a matrix is the basis state of target `j`.

Key definitions: `GateKind`, `tensor`, `GateKind.matrix`.
-/
import GateCircuit.Error
import GateCircuit.Gate.Named

namespace GateCircuit

/-- The widest Pauli string whose matrix is written out. -/
def maxMatrixQubits : Nat := 10

/-- The operation that a gate performs on its targets. -/
inductive GateKind (R : Type) where
  | named (gate : NamedGate R)
  /-- a tensor product of Pauli operators, one per target -/
  | pauli (paulis : List Pauli)
  /-- `exp (-i * angle / 2 * P)` for the tensor product `P` -/
  | rotation (paulis : List Pauli) (angle : R)
  /-- an arbitrary row-major matrix -/
  | dense (matrix : Array (Amplitude R))
  deriving BEq, DecidableEq, Repr

section Tensor

variable {R : Type} [Scalar R]

/-- The entry of the tensor product of `paulis` at a row and a column, times `entry`. A zero factor
settles it at once. -/
def tensorEntry : List Pauli → Nat → Nat → Amplitude R → Amplitude R
  | [], _, _, entry => entry
  | p :: ps, row, col, entry =>
    let product := entry * p.matrix.getD (row % 2 * 2 + col % 2) 0
    if product.isZero then product else tensorEntry ps (row / 2) (col / 2) product

/-- The row-major matrix of a tensor product of Pauli operators, `paulis[j]` on bit `j`. The width is
counted in a 32-bit word, which saturates. -/
def tensor (paulis : List Pauli) : Except (CircuitError R) (Array (Amplitude R)) :=
  let width := min paulis.length maxCount
  if maxMatrixQubits < width then .error (.tooManyQubits width maxMatrixQubits)
  else
    let dim := dimension width
    .ok ((Array.range (dim * dim)).map fun i => tensorEntry paulis (i / dim) (i % dim) 1)

/-- `cos (angle / 2) - i * sin (angle / 2) * P`, from the matrix of `P` with `dim` rows. -/
def rotationMatrix (dim : Nat) (angle : R) (product : Array (Amplitude R)) : Array (Amplitude R) :=
  let sine := Scalar.sin (Scalar.half angle)
  let cosine := Scalar.cos (Scalar.half angle)
  product.mapIdx fun i p =>
    let turned := (⟨0, -sine⟩ : Amplitude R) * p
    if i / dim = i % dim then ⟨turned.re + cosine, turned.im⟩ else turned

end Tensor

namespace GateKind

variable {R : Type}

/-- The name of a kind of gate. -/
def name : GateKind R → String
  | named gate => gate.name
  | pauli _ => "pauli"
  | rotation _ _ => "pauli_rotation"
  | dense _ => "dense_matrix"

/-- Whether the kind is a Pauli string or a rotation about one, which may act on no qubits. -/
def isPauliString : GateKind R → Bool
  | pauli _ => true
  | rotation _ _ => true
  | _ => false

/-- The angles of a kind of gate. -/
def parameters : GateKind R → List R
  | named gate => gate.parameters
  | rotation _ angle => [angle]
  | _ => []

/-- Whether the kind is classed as Clifford. -/
def isClifford : GateKind R → Bool
  | named gate => gate.isClifford
  | pauli _ => true
  | _ => false

/-- Whether the kind is classed as Gaussian. -/
def isGaussian : GateKind R → Bool
  | named gate => gate.isGaussian
  | _ => false

variable [Scalar R]

/-- The row-major matrix on the targets. Wide Pauli strings have too large a matrix; running them
never needs it. -/
def matrix : GateKind R → Except (CircuitError R) (Array (Amplitude R))
  | named gate => .ok gate.matrix
  | pauli paulis => tensor paulis
  | rotation paulis angle => (tensor paulis).map (rotationMatrix (dimension paulis.length) angle)
  | dense entries => .ok entries

end GateKind
end GateCircuit
