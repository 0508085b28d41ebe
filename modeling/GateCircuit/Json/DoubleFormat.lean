/-
# Doubles in documents

How a double is written, and which double a numeral is read as, is up to the library that documents are
written and read with, and to how it was built: it may read numerals in steps, or round only once. So
documents with doubles are written and read in a `DoubleFormat`. For a Hamiltonian that is
`DoubleFormat.nearest` if no other is given; what the command line loads is read with
`DoubleFormat.inSteps`.

Key definitions: `DoubleFormat`, `DoubleFormat.double?`, `DoubleFormat.inSteps`, `DoubleFormat.nearest`.
-/
import GateCircuit.Double.Reading
import GateCircuit.Double.Stepwise
import GateCircuit.Json.Basic

namespace GateCircuit

/-- The finite double that is nearest to a number. -/
def Json.nearest? : Json → Option Float
  | number numeral => some numeral.value.toDouble |>.filter Float.isFinite
  | _ => none

/-- How doubles are written, and how numerals are read as doubles. -/
structure DoubleFormat where
  write : Float → Json
  /-- the double that a numeral is read as, if it is read at all -/
  read? : Numeral → Option Float

namespace DoubleFormat

/-- Reads a double. Nothing but a number is one. -/
def double? (format : DoubleFormat) : Json → Option Float
  | .number numeral => format.read? numeral
  | _ => none

/-- Shortest decimals, read in steps. -/
def inSteps : DoubleFormat where
  write := Json.ofDouble
  read? := Numeral.stepwise?

/-- Shortest decimals, read with a single rounding. -/
def nearest : DoubleFormat where
  write := Json.ofDouble
  read? numeral := (Json.number numeral).nearest?

end DoubleFormat
end GateCircuit
