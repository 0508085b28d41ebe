/-
# Doubles with a fixed number of places

The exact value of a double is rounded to a multiple of `10 ^ -places`, a tie to the even digit, and
written with exactly that many digits after the point.

Key definition: `Double.fixed`.
-/
import GateCircuit.Decimal.Basic
import GateCircuit.Double.Exact

namespace GateCircuit
namespace Double

/-- A double with `places` digits after the point. A negative number keeps its sign even when all
its digits are zero. -/
def fixed (places : Nat) (x : Float) : String :=
  match exact x with
  | .nan => "NaN"
  | .infinite negative => if negative then "-inf" else "inf"
  | .finite negative m q =>
    let scaled := roundQuotient ((m * Decimal.tenTo places) <<< q.toNat) (1 <<< (-q).toNat)
    let shown := Decimal.pointed scaled places
    String.ofList (if negative then '-' :: shown else shown)

end Double
end GateCircuit
