/-
# Complex numbers

The entries of states and of gate matrices, and the weights of Hamiltonian terms, are complex
numbers over a scalar type, kept as real and imaginary part.

Key definitions: `Amplitude`, `Amplitude.polar`, `Amplitude.normSq`, `Amplitude.norm`.
-/
import GateCircuit.Scalar

namespace GateCircuit

/-- The complex number `re + im * i`. -/
structure Amplitude (R : Type) where
  re : R
  im : R
  deriving BEq, DecidableEq, Repr

namespace Amplitude

variable {R : Type} [Scalar R]

/-- A real number as a complex one. -/
def ofReal (x : R) : Amplitude R := ⟨x, 0⟩

instance : Zero (Amplitude R) := ⟨⟨0, 0⟩⟩

instance : One (Amplitude R) := ⟨⟨1, 0⟩⟩

/-- The imaginary unit. -/
def I : Amplitude R := ⟨0, 1⟩

instance : Add (Amplitude R) := ⟨fun a b => ⟨a.re + b.re, a.im + b.im⟩⟩

instance : Sub (Amplitude R) := ⟨fun a b => ⟨a.re - b.re, a.im - b.im⟩⟩

instance : Neg (Amplitude R) := ⟨fun a => ⟨-a.re, -a.im⟩⟩

instance : Mul (Amplitude R) :=
  ⟨fun a b => ⟨a.re * b.re - a.im * b.im, a.re * b.im + a.im * b.re⟩⟩

/-- The complex conjugate. -/
def conj (a : Amplitude R) : Amplitude R := ⟨a.re, -a.im⟩

/-- The squared absolute value. -/
def normSq (a : Amplitude R) : R := a.re * a.re + a.im * a.im

/-- The absolute value. -/
def norm (a : Amplitude R) : R := Scalar.hypotenuse a.re a.im

/-- The number of length `radius` at `angle` from the real axis. -/
def polar (radius angle : R) : Amplitude R :=
  ⟨radius * Scalar.cos angle, radius * Scalar.sin angle⟩

/-- Whether both parts equal zero. -/
def isZero (a : Amplitude R) : Bool := a.re == 0 && a.im == 0

/-- The sum of a list, added up from the left. -/
def sum (as : List (Amplitude R)) : Amplitude R := as.foldl (· + ·) 0

end Amplitude
end GateCircuit
