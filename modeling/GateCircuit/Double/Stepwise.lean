/-
# Reading doubles in steps

A numeral can be read with less care than to the nearest double: its first digits, as many as fit
in a word, are rounded to a double, which is multiplied or divided by a power of ten and rounded
once more. The result may be a neighbour of the nearest double.

Key definitions: `Numeral.fill`, `Numeral.scale?`, `Numeral.stepwise?`.
-/
import GateCircuit.Decimal.Numeral
import GateCircuit.Scalar

namespace GateCircuit
namespace Numeral

/-- A word with digits written behind it as long as the result is a word, and the digits left. -/
def fill (word : Nat) : List Char → Nat × List Char
  | [] => (word, [])
  | c :: cs =>
    let longer := Decimal.natural word [c]
    if longer ≤ maxWord then fill longer cs else (word, c :: cs)

/-- The largest power of ten that a number is scaled by at once. -/
def maxPower : Nat := 308

/-- The double nearest to a natural. -/
def nearest (n : Nat) : Float := Double.ofQuotient false n 1

/-- A number that is not negative times a power of ten, if it is finite. Large powers are divided
out in several steps. -/
def scale? (x : Float) (exponent : Int) : Option Float :=
  if exponent.natAbs ≤ maxPower then
    let power := nearest (Decimal.tenTo exponent.natAbs)
    if exponent < 0 then some (x / power) else some (x * power) |>.filter Float.isFinite
  else if x == 0 then some x
  else if exponent < 0 then scale? (x / nearest (Decimal.tenTo maxPower)) (exponent + maxPower)
  else none
termination_by exponent.natAbs
decreasing_by simp_all [maxPower]; omega

/-- Reads a numeral in steps, if the result is finite. The digits before the point that do not fit
in a word count as zeros, those after it not at all. -/
def stepwise? (n : Numeral) : Option Float :=
  let (front, wholeRest) := fill 0 n.whole
  let (word, fractionRest) := fill front n.fraction
  let places : Int := n.fraction.length - fractionRest.length
  (scale? (nearest word) (n.power.getD 0 + wholeRest.length - places)).map fun x =>
    if n.negative then -x else x

end Numeral
end GateCircuit
