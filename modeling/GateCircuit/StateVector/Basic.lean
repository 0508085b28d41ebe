/-
# State vectors

A state vector holds one amplitude per basis state; bit `q` of a basis index is the state of qubit
`q`. Here are the ways to make one and to look at it; the kernels have modules of their own.

Key definitions: `StateVector`, `StateVector.zeroState`, `StateVector.ofAmplitudes`,
`StateVector.setBasis`, `StateVector.probabilities`, `StateVector.inner?`.
-/
import GateCircuit.Error

namespace GateCircuit

/-- A register of qubits as `dimension qubitCount` amplitudes. -/
structure StateVector (R : Type) where
  amplitudes : Array (Amplitude R)
  qubitCount : Nat
  deriving BEq, DecidableEq, Repr

/-- The widest register that is written out. -/
def maxStateQubits : Nat := 30

namespace StateVector

variable {R : Type} [Scalar R]

/-- The amplitudes of the basis state `index` among `size`. -/
def basisAmplitudes (size index : Nat) : Array (Amplitude R) :=
  (Array.replicate size 0).setIfInBounds index 1

/-- The state in which all qubits are unset. -/
def zeroState (qubitCount : Nat) : Except (CircuitError R) (StateVector R) :=
  if maxStateQubits < qubitCount then .error (.tooManyQubits qubitCount maxStateQubits)
  else .ok ⟨basisAmplitudes (dimension qubitCount) 0, qubitCount⟩

/-- The state with given amplitudes, whose number must be a power of two. -/
def ofAmplitudes (amplitudes : Array (Amplitude R)) : Except (CircuitError R) (StateVector R) :=
  let size := amplitudes.size
  if size = dimension size.log2 then .ok ⟨amplitudes, size.log2⟩
  else .error (.invalidDimension size)

/-- The register set to the basis state `index`. -/
def setBasis (s : StateVector R) (index : Nat) : Except (CircuitError R) (StateVector R) :=
  if s.amplitudes.size ≤ index then .error (.invalidDimension index)
  else .ok { s with amplitudes := basisAmplitudes s.amplitudes.size index }

/-- The probability of each basis state. -/
def probabilities (s : StateVector R) : Array R := s.amplitudes.map Amplitude.normSq

/-- The sum of all probabilities; one for a normalised state. -/
def normSq (s : StateVector R) : R := s.probabilities.foldl (· + ·) 0

/-- The inner product of two states, conjugate in the first; none if their dimensions differ. -/
def inner? (s t : StateVector R) : Option (Amplitude R) :=
  if s.amplitudes.size = t.amplitudes.size then
    some (Amplitude.sum ((s.amplitudes.zip t.amplitudes).toList.map fun (a, b) => a.conj * b))
  else none

/-- Whether two states have the same dimension and no amplitudes further apart than `tolerance`. -/
def approxEq (s t : StateVector R) (tolerance : R) : Bool :=
  s.amplitudes.size == t.amplitudes.size &&
    (s.amplitudes.zip t.amplitudes).all fun (a, b) => Scalar.atMost (a - b).norm tolerance

end StateVector
end GateCircuit
