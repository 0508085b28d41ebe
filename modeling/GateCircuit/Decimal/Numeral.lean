/-
# Numerals

A numeral is a decimal number as it is written: a sign, digits before and after a point, and perhaps
an exponent. Many numerals stand for one number.

Key definitions: `Numeral`, `Numeral.value`, `Numeral.positional`, `Numeral.scientific`,
`Numeral.ofDecimal`, `Numeral.text`.
-/
import GateCircuit.Decimal.Scan

namespace GateCircuit

/-- A decimal number as it is written. -/
structure Numeral where
  negative : Bool
  /-- the digits before the point -/
  whole : List Char
  /-- the digits after the point; there is no point if there are none -/
  fraction : List Char
  power : Option Int
  deriving DecidableEq, Repr

namespace Numeral

/-- Whether a numeral is written without point and exponent. -/
def isIntegral (n : Numeral) : Bool := n.fraction.isEmpty && n.power.isNone

/-- The number that a numeral stands for, in normal form. -/
def value (n : Numeral) : Decimal :=
  Decimal.assemble n.negative n.whole n.fraction (n.power.getD 0)

/-- The natural that an integral numeral writes, if it has no sign. -/
def natural? (n : Numeral) : Option Nat :=
  if n.isIntegral && !n.negative then some (Decimal.natural 0 n.whole) else none

/-- A natural number as a numeral. -/
def ofNat (n : Nat) : Numeral :=
  { negative := false, whole := Nat.toDigits 10 n, fraction := [], power := none }

/-- A number in normal form as a numeral with a point and no exponent. -/
def positional (d : Decimal) : Numeral :=
  let (whole, fraction) :=
    Decimal.splitDigits (d.coefficient * Decimal.tenTo d.exponent.toNat) (-d.exponent).toNat
  { negative := d.negative
    whole
    fraction := if fraction.isEmpty then ['0'] else fraction
    power := none }

/-- A number in normal form as a numeral with one digit before the point and an exponent; there is no
point if it has no other digit. -/
def scientific (d : Decimal) : Numeral :=
  let digits := Nat.toDigits 10 d.coefficient
  { negative := d.negative
    whole := digits.take 1
    fraction := digits.drop 1
    power := some (d.exponent + (digits.drop 1).length) }

/-- A number in normal form as a numeral, without an exponent if it has at most sixteen digits before
the point, and at most four zeros after it if there are none but a zero before it. -/
def ofDecimal (d : Decimal) : Numeral :=
  let place := d.exponent + (Nat.toDigits 10 d.coefficient).length
  if -5 < place ∧ place ≤ 16 then positional d else scientific d

/-- An exponent with its letter. -/
def powerText (k : Int) : List Char :=
  'e' :: ((if k < 0 then ['-'] else []) ++ Nat.toDigits 10 k.natAbs)

/-- A numeral as text. -/
def text (n : Numeral) : List Char :=
  (if n.negative then ['-'] else []) ++ n.whole ++
    (if n.fraction.isEmpty then [] else '.' :: n.fraction) ++ n.power.elim [] powerText

end Numeral
end GateCircuit
