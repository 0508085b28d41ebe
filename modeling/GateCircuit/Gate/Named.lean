/-
# Named gates

The gates that have a name of their own: one-qubit gates, some with angles, and the two-qubit gates
`cx`, `cz` and `swap`. For each its name, its angles, its matrix and three properties.

Key definitions: `OneQubitGate`, `NamedGate`, `NamedGate.matrix`.
-/
import GateCircuit.Pauli

namespace GateCircuit

/-- A named gate on one qubit. -/
inductive OneQubitGate (R : Type) where
  /-- the identity -/
  | id
  | x
  | y
  | z
  /-- the Hadamard gate -/
  | h
  /-- the square root of `z` -/
  | s
  /-- the inverse of `s` -/
  | sdg
  /-- a square root of `x` -/
  | sx
  /-- the inverse of `sx` -/
  | sxdg
  /-- a square root of `y` -/
  | sy
  /-- the inverse of `sy` -/
  | sydg
  /-- the fourth root of `z` -/
  | t
  /-- the inverse of `t` -/
  | tdg
  /-- the projection onto the lower basis state -/
  | p0
  /-- the projection onto the upper basis state -/
  | p1
  /-- the rotation about the `x` axis, `exp (-i * angle / 2 * X)` -/
  | rx (angle : R)
  /-- the rotation about the `y` axis -/
  | ry (angle : R)
  /-- the rotation about the `z` axis -/
  | rz (angle : R)
  /-- the phase `exp (i * lambda)` on the upper basis state -/
  | u1 (lambda : R)
  /-- `u3` with `theta` a right angle -/
  | u2 (phi lambda : R)
  /-- the general one-qubit gate -/
  | u3 (theta phi lambda : R)
  deriving BEq, DecidableEq, Repr

/-- A gate with a name of its own. -/
inductive NamedGate (R : Type) where
  /-- a gate on one target -/
  | single (gate : OneQubitGate R)
  /-- `x` on a target, if the control is set -/
  | cx
  /-- `z` on a target, if the control is set -/
  | cz
  /-- the exchange of two targets -/
  | swap
  deriving BEq, DecidableEq, Repr

namespace OneQubitGate

variable {R : Type}

/-- The name of a gate. -/
def name : OneQubitGate R → String
  | id => "id"
  | x => "x"
  | y => "y"
  | z => "z"
  | h => "h"
  | s => "s"
  | sdg => "sdg"
  | sx => "sx"
  | sxdg => "sxdg"
  | sy => "sy"
  | sydg => "sydg"
  | t => "t"
  | tdg => "tdg"
  | p0 => "p0"
  | p1 => "p1"
  | rx _ => "rx"
  | ry _ => "ry"
  | rz _ => "rz"
  | u1 _ => "u1"
  | u2 _ _ => "u2"
  | u3 _ _ _ => "u3"

/-- The angles of a gate. -/
def parameters : OneQubitGate R → List R
  | rx angle => [angle]
  | ry angle => [angle]
  | rz angle => [angle]
  | u1 lambda => [lambda]
  | u2 phi lambda => [phi, lambda]
  | u3 theta phi lambda => [theta, phi, lambda]
  | _ => []

/-- Whether the gate is classed as Clifford. -/
def isClifford : OneQubitGate R → Bool
  | id | x | y | z | h | s | sdg | sx | sxdg | sy | sydg => true
  | _ => false

/-- Whether the gate is classed as Gaussian: all but the projections. -/
def isGaussian : OneQubitGate R → Bool
  | p0 | p1 => false
  | _ => true

/-- Whether the gate is diagonal in the computational basis. -/
def isDiagonal : OneQubitGate R → Bool
  | id | z | s | sdg | t | tdg | p0 | p1 | rz _ | u1 _ => true
  | _ => false

variable [Scalar R]

open Amplitude (ofReal polar)

/-- The matrix of `u3`. -/
def u3Matrix (theta phi lambda : R) : Array (Amplitude R) :=
  let sine := Scalar.sin (Scalar.half theta)
  let cosine := Scalar.cos (Scalar.half theta)
  #[ofReal cosine, -polar sine lambda, polar sine phi, polar cosine (phi + lambda)]

/-- The row-major matrix of a gate. -/
def matrix : OneQubitGate R → Array (Amplitude R)
  | id => Pauli.I.matrix
  | x => Pauli.X.matrix
  | y => Pauli.Y.matrix
  | z => Pauli.Z.matrix
  | h =>
    let c : Amplitude R := ofReal Scalar.sqrtHalf
    #[c, c, c, -c]
  | s => #[1, 0, 0, Amplitude.I]
  | sdg => #[1, 0, 0, -Amplitude.I]
  | sx =>
    let c : R := Scalar.half 1
    #[⟨c, c⟩, ⟨c, -c⟩, ⟨c, -c⟩, ⟨c, c⟩]
  | sxdg =>
    let c : R := Scalar.half 1
    #[⟨c, -c⟩, ⟨c, c⟩, ⟨c, c⟩, ⟨c, -c⟩]
  | sy =>
    let c : R := Scalar.half 1
    #[⟨c, c⟩, ⟨-c, -c⟩, ⟨c, c⟩, ⟨c, c⟩]
  | sydg =>
    let c : R := Scalar.half 1
    #[⟨c, -c⟩, ⟨c, -c⟩, ⟨-c, c⟩, ⟨c, -c⟩]
  | t => #[1, 0, 0, polar 1 Scalar.quarterPi]
  | tdg => #[1, 0, 0, polar 1 (-Scalar.quarterPi)]
  | p0 => #[1, 0, 0, 0]
  | p1 => #[0, 0, 0, 1]
  | rx angle =>
    let sine := Scalar.sin (Scalar.half angle)
    let cosine := Scalar.cos (Scalar.half angle)
    #[⟨cosine, 0⟩, ⟨0, -sine⟩, ⟨0, -sine⟩, ⟨cosine, 0⟩]
  | ry angle =>
    let sine := Scalar.sin (Scalar.half angle)
    let cosine := Scalar.cos (Scalar.half angle)
    #[⟨cosine, 0⟩, ⟨-sine, 0⟩, ⟨sine, 0⟩, ⟨cosine, 0⟩]
  | rz angle => #[polar 1 (Scalar.half (-angle)), 0, 0, polar 1 (Scalar.half angle)]
  | u1 lambda => #[1, 0, 0, polar 1 lambda]
  | u2 phi lambda => u3Matrix (Scalar.half Scalar.pi) phi lambda
  | u3 theta phi lambda => u3Matrix theta phi lambda

end OneQubitGate

namespace NamedGate

variable {R : Type}

/-- The name of a gate. -/
def name : NamedGate R → String
  | single gate => gate.name
  | cx => "cx"
  | cz => "cz"
  | swap => "swap"

/-- How many targets the gate has, controls not counted. -/
def targetCount : NamedGate R → Nat
  | swap => 2
  | _ => 1

/-- How many controls the gate has. -/
def controlCount : NamedGate R → Nat
  | cx => 1
  | cz => 1
  | _ => 0

/-- The angles of a gate. -/
def parameters : NamedGate R → List R
  | single gate => gate.parameters
  | _ => []

/-- Whether the gate is classed as Clifford. -/
def isClifford : NamedGate R → Bool
  | single gate => gate.isClifford
  | _ => true

/-- Whether the gate is classed as Gaussian. -/
def isGaussian : NamedGate R → Bool
  | single gate => gate.isGaussian
  | _ => true

/-- Whether the gate is diagonal in the computational basis. -/
def isDiagonal : NamedGate R → Bool
  | single gate => gate.isDiagonal
  | cz => true
  | _ => false

variable [Scalar R]

/-- The row-major matrix on the targets of a gate. -/
def matrix : NamedGate R → Array (Amplitude R)
  | single gate => gate.matrix
  | cx => Pauli.X.matrix
  | cz => Pauli.Z.matrix
  | swap => #[1, 0, 0, 0, 0, 0, 1, 0, 0, 1, 0, 0, 0, 0, 0, 1]

end NamedGate
end GateCircuit
