/-
# The most likely outcomes

The basis states of a register in the order of their probability, highest first and the lower index
first among equals. Probabilities are compared as they are stored, by the total order on the words of
64 bits that stand for doubles. What is no number has its place there by its sign: above all numbers,
or below them.

Key definitions: `Stored`, `Double.orderKey`, `Outcome`, `topOutcomes`.
-/
import GateCircuit.StateVector.Basic

namespace GateCircuit

/-- Scalars that are stored as doubles. -/
class Stored (R : Type) where
  /-- the word that a scalar is stored as -/
  bits : R → UInt64

/-- Doubles are stored as themselves. What is no number can be stored as one of many words, and which
of them a result gets is left open by the arithmetic of doubles; here it is always the same. -/
instance : Stored Float where
  bits := Float.toBits

/-- A natural that grows along the total order on stored doubles. -/
def Double.orderKey (bits : UInt64) : Nat :=
  if bits.toNat < signBit then bits.toNat + signBit else maxWord - bits.toNat

/-- A basis state, qubit zero rightmost, and the probability of measuring it. -/
structure Outcome (R : Type) where
  bitstring : String
  probability : R
  deriving Repr

/-- The digits of `index` in base two, filled up with zeros to `width`. -/
def bitstring (width index : Nat) : String :=
  let shown := Nat.toDigits 2 index
  String.ofList (List.replicate (width - shown.length) '0' ++ shown)

variable {R : Type} [Stored R]

/-- Whether an indexed probability comes before another. -/
def likelier (a b : R × Nat) : Bool :=
  let keyA := Double.orderKey (Stored.bits a.1)
  let keyB := Double.orderKey (Stored.bits b.1)
  keyB < keyA || (keyA == keyB && a.2 ≤ b.2)

/-- The `limit` most likely outcomes. -/
def topOutcomes [Scalar R] (s : StateVector R) (limit : Nat) : List (Outcome R) :=
  let width := s.amplitudes.size.log2
  let ranked := s.probabilities.toList.zipIdx.mergeSort likelier
  (ranked.take limit).map fun (probability, index) =>
    { bitstring := bitstring width index, probability }

end GateCircuit
