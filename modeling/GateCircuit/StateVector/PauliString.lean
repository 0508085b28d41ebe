/-
# The Pauli kernel

A Pauli string sends each basis state to a multiple of one other: its `X` and `Y` operators flip
bits, its `Y` and `Z` operators give signs, and each `Y` a factor `i`. So a combination
`stay + flip * P` of the identity and a string needs no matrix: without flips each amplitude is
multiplied by a number, and otherwise the amplitudes are mixed in pairs. A pair is visited once,
from the side on which the lowest flipped bit is unset.

Key definitions: `PauliMasks`, `PauliMasks.phase`, `StateVector.mixPauli`, `StateVector.applyPauli`,
`StateVector.applyRotation`.
-/
import GateCircuit.StateVector.Operands
import GateCircuit.Pauli

namespace GateCircuit

/-- Whether an odd number of bits of `n` are set. -/
def oddBits (n : Nat) : Bool :=
  if n = 0 then false else (n % 2 == 1) != oddBits (n / 2)
termination_by n

/-- The lowest set bit of a number, as a mask; nothing for zero. -/
def lowestBit (n : Nat) : Nat := n &&& (n ^^^ (n - 1))

/-- A Pauli string as masks. -/
structure PauliMasks where
  /-- the bits under `X` and `Y` -/
  flips : Nat
  /-- the bits under `Y` and `Z` -/
  signs : Nat
  /-- the number of `Y` operators -/
  yCount : Nat
  deriving DecidableEq, Repr

namespace PauliMasks

/-- The masks of the string with `paulis[j]` on `targets[j]`. -/
def ofString (targets : List Qubit) (paulis : List Pauli) : PauliMasks :=
  (targets.zip paulis).foldl
    (fun masks (q, p) =>
      { flips := if p.flips then masks.flips ||| q.mask else masks.flips
        signs := if p.signs then masks.signs ||| q.mask else masks.signs
        yCount := if p = .Y then masks.yCount + 1 else masks.yCount })
    ⟨0, 0, 0⟩

variable {R : Type} [Scalar R]

/-- A power of the imaginary unit. -/
def iPower (n : Nat) : Amplitude R :=
  match n % 4 with
  | 0 => 1
  | 1 => Amplitude.I
  | 2 => -1
  | _ => -Amplitude.I

/-- The factor with which the string sends the basis state `b` to its partner. -/
def phase (masks : PauliMasks) (b : Nat) : Amplitude R :=
  if oddBits (b &&& masks.signs) then -iPower masks.yCount else iPower masks.yCount

/-- `stay + flip * P` for a string without flips. -/
def scaleSweep (masks : PauliMasks) (o : Operands) (stay flip : Amplitude R)
    (amps : Array (Amplitude R)) : Array (Amplitude R) :=
  amps.mapIdx fun b amp => if o.isActive b then amp * (stay + flip * masks.phase b) else amp

/-- `stay + flip * P` for a string that flips bits. -/
def pairSweep (masks : PauliMasks) (o : Operands) (stay flip : Amplitude R)
    (amps : Array (Amplitude R)) : Array (Amplitude R) :=
  let pivot := lowestBit masks.flips
  Nat.fold amps.size
    (fun b _ amps =>
      if b &&& pivot == 0 && o.isActive b then
        let partner := b ^^^ masks.flips
        let here := amps.getD b 0
        let there := amps.getD partner 0
        (amps.setIfInBounds b (stay * here + flip * masks.phase partner * there)).setIfInBounds
          partner (stay * there + flip * masks.phase b * here)
      else amps)
    amps

end PauliMasks

namespace StateVector

variable {R : Type} [Scalar R]

/-- Applies `stay + flip * P` for the Pauli string `P`, where all controls are set. An error reports
lengths up to `maxCount`. -/
def mixPauli (s : StateVector R) (targets controls : List Qubit) (paulis : List Pauli)
    (stay flip : Amplitude R) : Except (CircuitError R) (StateVector R) := do
  if targets.length ≠ paulis.length then
    throw (.qubitCountMismatch "pauli" (min paulis.length maxCount) (min targets.length maxCount))
  let o ← s.operands targets controls
  let masks := PauliMasks.ofString targets paulis
  let sweep := if masks.flips = 0 then masks.scaleSweep else masks.pairSweep
  pure { s with amplitudes := sweep o stay flip s.amplitudes }

/-- Applies a Pauli string where all controls are set. -/
def applyPauli (s : StateVector R) (targets controls : List Qubit) (paulis : List Pauli) :
    Except (CircuitError R) (StateVector R) :=
  s.mixPauli targets controls paulis 0 1

/-- Applies `exp (-i * angle / 2 * P)` for the Pauli string `P`, where all controls are set. -/
def applyRotation (s : StateVector R) (targets controls : List Qubit) (paulis : List Pauli)
    (angle : R) : Except (CircuitError R) (StateVector R) :=
  let sine := Scalar.sin (Scalar.half angle)
  let cosine := Scalar.cos (Scalar.half angle)
  s.mixPauli targets controls paulis ⟨cosine, 0⟩ ⟨0, -sine⟩

end StateVector
end GateCircuit
