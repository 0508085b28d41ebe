/-
# Scanning decimal numbers

The parts that decimal grammars share: runs of digits, a fraction after a point, an exponent after
its letter. Each scanner returns what it read and what is left.

Key definitions: `Decimal.scanFraction`, `Decimal.scanPower`, `Decimal.scan`.
-/
import GateCircuit.Decimal.Basic

namespace GateCircuit
namespace Decimal

/-- An exponent after its letter: an optional sign and at least one digit. -/
def scanExponent (cs : List Char) : Option (Int × List Char) :=
  let (negative, body) :=
    match cs with
    | '-' :: rest => (true, rest)
    | '+' :: rest => (false, rest)
    | _ => (false, cs)
  let run := body.takeWhile isDigit
  if run.isEmpty then none
  else
    let size : Int := natural 0 run
    some (if negative then -size else size, body.dropWhile isDigit)

/-- The exponent that `cs` starts with, or no exponent if there is no letter for one; fails if the
letter is followed by no digit. -/
def scanPower (cs : List Char) : Option (Option Int × List Char) :=
  match cs with
  | 'e' :: rest => (scanExponent rest).map fun (k, rest) => (some k, rest)
  | 'E' :: rest => (scanExponent rest).map fun (k, rest) => (some k, rest)
  | _ => some (none, cs)

/-- The digits after a point that `cs` starts with, or none if there is no point. -/
def scanFraction (cs : List Char) : Option (List Char) × List Char :=
  match cs with
  | '.' :: rest => (some (rest.takeWhile isDigit), rest.dropWhile isDigit)
  | _ => (none, cs)

/-- The number with these digits before the point, after the point, and this exponent. -/
def assemble (negative : Bool) (whole fraction : List Char) (power : Int) : Decimal :=
  normal negative (natural (natural 0 whole) fraction) (power - fraction.length)

/-- A decimal without sign that takes up all of `cs`: digits with at most one point, at least one of
them, then perhaps an exponent. -/
def scan (negative : Bool) (cs : List Char) : Option Decimal := do
  let whole := cs.takeWhile isDigit
  let (fraction, rest) := scanFraction (cs.dropWhile isDigit)
  let fraction := fraction.getD []
  if whole.isEmpty && fraction.isEmpty then none
  let (power, rest) ← scanPower rest
  if rest.isEmpty then some (assemble negative whole fraction (power.getD 0)) else none

end Decimal
end GateCircuit
