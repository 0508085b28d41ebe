/-
# The shortest decimal of a double

A double is written with as few digits as still read back as the same double. The decimals that
read back form an interval around its exact value: from halfway to the neighbour below to halfway
to the neighbour above, ends included if the mantissa is even. From the coarsest decimal grid to
finer ones, `search` tests the two neighbours of the value on the grid; the first grid with a hit
wins, of two hits the nearer one, and a tie goes to the larger.

Key definitions: `Double.readsBack`, `Double.search`, `Double.shortest`, `Double.text`.
-/
import GateCircuit.Decimal.Basic
import GateCircuit.Double.Exact

namespace GateCircuit
namespace Double

/-- Compares `a * 10 ^ i` with `n * 2 ^ j`. -/
def compareScaled (a : Nat) (i : Int) (n : Nat) (j : Int) : Ordering :=
  compare ((a * Decimal.tenTo i.toNat) <<< (-j).toNat) ((n * Decimal.tenTo (-i).toNat) <<< j.toNat)

/-- Whether `a * 10 ^ k` lies in the interval of reals that round to the positive double
`m * 2 ^ q`. Below a power of two the doubles lie twice as close. -/
def readsBack (m : Nat) (q : Int) (a : Nat) (k : Int) : Bool :=
  let below := if m = leadingOne ∧ minExponent < q then 4 * m - 1 else 4 * m - 2
  let atLow := compareScaled a k below (q - 2)
  let atHigh := compareScaled a k (4 * m + 2) (q - 2)
  if m % 2 = 0 then atLow != .lt && atHigh != .gt else atLow == .gt && atHigh == .lt

/-- The largest multiple of `10 ^ k` that is at most `m * 2 ^ q`, in units of `10 ^ k`. -/
def gridFloor (m : Nat) (q k : Int) : Nat :=
  ((m * Decimal.tenTo (-k).toNat) <<< q.toNat) / (Decimal.tenTo k.toNat <<< (-q).toNat)

/-- Whether `m * 2 ^ q` is nearer to `a` than to `a + 1`, both in units of `10 ^ k`. -/
def nearerBelow (m : Nat) (q k : Int) (a : Nat) : Bool :=
  compareScaled (2 * a + 1) k (2 * m) q == .gt

/-- The number on the grid `10 ^ k` that reads back as `m * 2 ^ q`, if there is one. -/
def onGrid (m : Nat) (q k : Int) : Option Nat :=
  let a := gridFloor m q k
  let low := readsBack m q a k
  let high := readsBack m q (a + 1) k
  if low && (!high || nearerBelow m q k a) then some a
  else if high then some (a + 1)
  else none

/-- The first number that reads back on the grids `10 ^ k`, `10 ^ (k - 1)`, …, at most `fuel` of
them, with its grid; after that the exact value. -/
def search (m : Nat) (q : Int) : Nat → Int → Nat × Int
  | 0, _ => ((m * Nat.pow 5 (-q).toNat) <<< q.toNat, min q 0)
  | fuel + 1, k =>
    match onGrid m q k with
    | some a => (a, k)
    | none => search m q fuel (k - 1)

/-- The exponent of the leading decimal digit of the positive number `m * 2 ^ q`. -/
def leadingPlace (m : Nat) (q : Int) : Int :=
  ((Nat.toDigits 10 (gridFloor m q (-350))).length : Int) - 351

/-- The decimal with the fewest digits that reads back as the double `m * 2 ^ q`, negated if
`negative`. -/
def shortest (negative : Bool) (m : Nat) (q : Int) : Decimal :=
  if m = 0 then { negative, coefficient := 0, exponent := 0 }
  else
    let (a, k) := search m q 18 (leadingPlace m q + 1)
    Decimal.normal negative a k

/-- A double as text: the fewest digits that read back, `NaN`, `inf` or `-inf`. -/
def text (x : Float) : String :=
  match exact x with
  | .nan => "NaN"
  | .infinite negative => if negative then "-inf" else "inf"
  | .finite negative m q => (shortest negative m q).text

end Double
end GateCircuit
