/-
# Reading doubles

The double that a decimal number means is the nearest one. Numbers on the command line and in plain
scalars follow one grammar: an optional sign, then `inf`, `infinity` or `nan` in any case, or a
decimal number.

Key definitions: `Decimal.toDouble`, `Double.read`.
-/
import GateCircuit.Decimal.Scan
import GateCircuit.Double.Exact

namespace GateCircuit

/-- The nearest double, infinite if the number is too large. Numbers far outside the range are
settled by their count of digits, without writing them out. -/
def Decimal.toDouble (d : Decimal) : Float :=
  let places : Int := (Nat.toDigits 10 d.coefficient).length
  if d.coefficient = 0 ∨ d.exponent + places < -330 then Double.zero d.negative
  else if 330 < d.exponent + places then Double.infinity d.negative
  else
    Double.ofQuotient d.negative (d.coefficient * tenTo d.exponent.toNat)
      (tenTo (-d.exponent).toNat)

namespace Double

/-- A number written out in full: a sign at most, then a word for infinity or for no number, or a
decimal number. -/
def read (text : String) : Option Float :=
  let (negative, body) :=
    match text.toList with
    | '-' :: rest => (true, rest)
    | '+' :: rest => (false, rest)
    | cs => (false, cs)
  let word := String.ofList (body.map Char.toLower)
  if word = "inf" ∨ word = "infinity" then some (infinity negative)
  else if word = "nan" then some nan
  else (Decimal.scan negative body).map Decimal.toDouble

end Double
end GateCircuit
