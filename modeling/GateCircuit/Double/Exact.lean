/-
# Doubles as exact numbers

A finite double is an integer multiple of a power of two, `m * 2 ^ q`. This module takes a double
apart into that exact value and, in the other direction, rounds a quotient of naturals to the
nearest double. Both work on the bits of the 64-bit interchange format, in exact `Nat` arithmetic.

Key definitions: `Exact`, `Double.exact`, `Double.ofQuotient`.
-/

namespace GateCircuit
namespace Double

/-- What a double stands for, exactly. -/
inductive Exact where
  /-- no number -/
  | nan
  /-- an infinity of either sign -/
  | infinite (negative : Bool)
  /-- the number `mantissa * 2 ^ exponent`, negated if `negative`; zero has either sign -/
  | finite (negative : Bool) (mantissa : Nat) (exponent : Int)
  deriving DecidableEq, Repr

/-- The exponent of the least significant bit of the smallest doubles. -/
def minExponent : Int := -1074

/-- Bits of a mantissa after its leading one. -/
def fractionBits : Nat := 52

/-- The leading one of a mantissa with all its bits. -/
def leadingOne : Nat := 1 <<< fractionBits

/-- The bit that makes a double negative. -/
def signBit : Nat := 1 <<< 63

/-- The exponent field of the infinities and of no number. -/
def topField : Nat := 2047

/-- The exact value of a double, read off its bits. -/
def exact (x : Float) : Exact :=
  let bits := x.toBits.toNat
  let negative := bits / signBit = 1
  let field := bits / leadingOne % (topField + 1)
  let fraction := bits % leadingOne
  if field = topField then
    if fraction = 0 then .infinite negative else .nan
  else if field = 0 then .finite negative fraction minExponent
  else .finite negative (leadingOne + fraction) (minExponent + (field - 1 : Nat))

/-- The double with the given sign whose remaining 63 bits are `magnitude`. -/
def ofMagnitude (negative : Bool) (magnitude : Nat) : Float :=
  Float.ofBits (UInt64.ofNat (if negative then signBit + magnitude else magnitude))

/-- Zero of either sign. -/
def zero (negative : Bool) : Float := ofMagnitude negative 0

/-- Infinity of either sign. -/
def infinity (negative : Bool) : Float := ofMagnitude negative (topField * leadingOne)

/-- No number. -/
def nan : Float := 0.0 / 0.0

/-- The quotient `num / den` rounded to the nearest natural, a half to the even neighbour. -/
def roundQuotient (num den : Nat) : Nat :=
  let whole := num / den
  let rest := 2 * (num % den)
  if rest < den then whole
  else if rest = den then whole + whole % 2
  else whole + 1

/-- `(num / den) / 2 ^ q` as a quotient of naturals. -/
def scaleDown (num den : Nat) (q : Int) : Nat × Nat :=
  (num <<< (-q).toNat, den <<< q.toNat)

/-- The exponent of the last mantissa bit of the double nearest to `num / den`: the one that leaves
53 bits before the point, unless the number is so small that fewer bits are kept. -/
def lastBit (num den : Nat) : Int :=
  let guess := max ((Nat.log2 num : Int) - (Nat.log2 den : Int) - 53) minExponent
  let scaled := scaleDown num den guess
  if scaled.1 / scaled.2 < 2 * leadingOne then guess else guess + 1

/-- The double nearest to `num / den`, with the given sign; a tie goes to the even mantissa, and a
number beyond the largest double by half a step or more becomes infinite. The bits of neighbouring
doubles are neighbouring naturals, so a mantissa that rounds up to `2 ^ 53` needs no extra case. -/
def ofQuotient (negative : Bool) (num den : Nat) : Float :=
  if num = 0 then zero negative
  else
    let q := lastBit num den
    let scaled := scaleDown num den q
    let magnitude := (q - minExponent).toNat * leadingOne + roundQuotient scaled.1 scaled.2
    if magnitude < topField * leadingOne then ofMagnitude negative magnitude
    else infinity negative

end Double
end GateCircuit
