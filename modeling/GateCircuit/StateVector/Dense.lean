/-
# The matrix kernel

A matrix on `k` targets mixes blocks of `2 ^ k` amplitudes. A block is reached from its base, the
basis index with all target bits unset, by adding the target bits that a matrix index sets. The
sweep runs over all bases on which the controls are set: it reads the block out, and writes back
the product with the matrix.

Key definitions: `spread`, `rowSum`, `writeBlock`, `StateVector.applyMatrix`.
-/
import GateCircuit.StateVector.Operands

namespace GateCircuit

/-- The target bits that the matrix index `m` sets: bit `j` of `m` goes to bit `targets[j]`. -/
def spread : List Qubit → Nat → Nat
  | [], _ => 0
  | q :: qs, m => (if m % 2 = 1 then q.mask else 0) ||| spread qs (m / 2)

/-- The number of rows of a matrix on `k` targets, as a shift of a 64-bit word. -/
def blockSize (k : Nat) : Nat := 1 <<< (k % 64)

/-- The number of entries of a matrix with `dim` rows, as a product of 64-bit words. -/
def blockEntries (dim : Nat) : Nat := dim * dim % (maxWord + 1)

section Sweep

variable {R : Type} [Scalar R]

/-- Row `row` of a matrix times the column `old`, added up from the left. -/
def rowSum (matrix old : Array (Amplitude R)) (row : Nat) : Amplitude R :=
  Nat.fold old.size (fun m _ acc => acc + matrix.getD (row * old.size + m) 0 * old.getD m 0) 0

/-- Multiplies the block at `base` by a matrix. -/
def writeBlock (matrix : Array (Amplitude R)) (offsets : Array Nat) (base : Nat)
    (amps : Array (Amplitude R)) : Array (Amplitude R) :=
  let old := offsets.map fun offset => amps.getD (base ||| offset) 0
  Nat.fold offsets.size
    (fun row _ amps => amps.setIfInBounds (base ||| offsets.getD row 0) (rowSum matrix old row))
    amps

/-- Multiplies every block on which the controls are set. -/
def denseSweep (matrix : Array (Amplitude R)) (offsets : Array Nat) (o : Operands)
    (amps : Array (Amplitude R)) : Array (Amplitude R) :=
  Nat.fold amps.size
    (fun base _ amps =>
      if base &&& o.targets == 0 && o.isActive base then writeBlock matrix offsets base amps
      else amps)
    amps

end Sweep

namespace StateVector

variable {R : Type} [Scalar R]

/-- Applies a row-major matrix to the targets where all controls are set. -/
def applyMatrix (s : StateVector R) (targets controls : List Qubit)
    (matrix : Array (Amplitude R)) : Except (CircuitError R) (StateVector R) := do
  let o ← s.operands targets controls
  let dim := blockSize targets.length
  if matrix.size = blockEntries dim then
    let offsets := (Array.range dim).map (spread targets)
    pure { s with amplitudes := denseSweep matrix offsets o s.amplitudes }
  else throw (.invalidMatrix (blockEntries dim) matrix.size)

end StateVector
end GateCircuit
