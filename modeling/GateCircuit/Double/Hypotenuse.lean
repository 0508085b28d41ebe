/-
# The length of a vector of two doubles

`hypotenuse x y` is the double nearest to the square root of `x ^ 2 + y ^ 2`. The sum is formed
exactly, so nothing overflows on the way; the root is taken in naturals with 64 extra bits, and a
last bit records whether anything was cut off.

Key definitions: `floorRoot`, `Double.hypotenuse`.
-/
import GateCircuit.Double.Exact

namespace GateCircuit
namespace Double

/-- The largest natural whose square is at most `n`, found two bits of `n` at a time. -/
def floorRoot (n : Nat) : Nat :=
  if n = 0 then 0
  else
    let root := 2 * floorRoot (n / 4)
    if (root + 1) * (root + 1) ≤ n then root + 1 else root
termination_by n

/-- The double nearest to the square root of `square * 4 ^ q`. -/
def rootOf (square : Nat) (q : Int) : Float :=
  let widened := square <<< 128
  let root := floorRoot widened
  let marked := if root * root = widened then 2 * root else 2 * root + 1
  ofQuotient false (marked <<< (q - 65).toNat) (1 <<< (65 - q).toNat)

/-- The length of the vector `(x, y)`: infinite if a part is, whatever the other one. -/
def hypotenuse (x y : Float) : Float :=
  match exact x, exact y with
  | .infinite _, _ => infinity false
  | _, .infinite _ => infinity false
  | .finite _ m q, .finite _ n r =>
    let least := min q r
    let a := m <<< (q - least).toNat
    let b := n <<< (r - least).toNat
    rootOf (a * a + b * b) least
  | _, _ => nan

end Double
end GateCircuit
