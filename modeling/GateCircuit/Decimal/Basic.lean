/-
# Decimal numbers

A decimal number is a sign, a natural and a power of ten. It is in normal form if the natural does
not end in a zero, and then it is determined by its value. As text it is positional: no exponent,
and no point without digits after it.

Key definitions: `Decimal`, `Decimal.normal`, `Decimal.text`.
-/

namespace GateCircuit

/-- The number `coefficient * 10 ^ exponent`, negated if `negative`. -/
structure Decimal where
  negative : Bool
  coefficient : Nat
  exponent : Int
  deriving DecidableEq, Repr

namespace Decimal

/-- Ten to the power `k`. -/
def tenTo (k : Nat) : Nat := Nat.pow 10 k

/-- The natural `n * 10 ^ k` without zeros at its end, and the power of ten to match; zero has the
power zero. -/
def strip (n : Nat) (k : Int) : Nat × Int :=
  if n = 0 then (0, 0) else if n % 10 = 0 then strip (n / 10) (k + 1) else (n, k)
termination_by n

/-- The decimal number in normal form. -/
def normal (negative : Bool) (coefficient : Nat) (exponent : Int) : Decimal :=
  let (n, k) := strip coefficient exponent
  { negative, coefficient := n, exponent := k }

/-- The digits of `n` in front of a point that has `places` digits after it, and those digits. -/
def splitDigits (n places : Nat) : List Char × List Char :=
  let shown := Nat.toDigits 10 n
  let padded := List.replicate (places + 1 - shown.length) '0' ++ shown
  padded.splitAt (padded.length - places)

/-- The digits of `n` with a point `places` digits from the end; no point if `places` is zero. -/
def pointed (n places : Nat) : List Char :=
  let (whole, fraction) := splitDigits n places
  if fraction.isEmpty then whole else whole ++ '.' :: fraction

/-- A number in normal form, written positionally. -/
def text (d : Decimal) : String :=
  let shown := pointed (d.coefficient * tenTo d.exponent.toNat) (-d.exponent).toNat
  String.ofList (if d.negative then '-' :: shown else shown)

/-- The value of a decimal digit. -/
def digit? (c : Char) : Option Nat :=
  if '0' ≤ c ∧ c ≤ '9' then some (c.toNat - '0'.toNat) else none

/-- Whether `c` is one of `0` to `9`. -/
def isDigit (c : Char) : Bool := (digit? c).isSome

/-- The natural that a run of digits writes, read on from `start`. -/
def natural (start : Nat) (run : List Char) : Nat :=
  run.foldl (fun n c => 10 * n + (digit? c).getD 0) start

end Decimal
end GateCircuit
