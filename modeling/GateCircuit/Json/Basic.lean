/-
# JSON values

A JSON value as it stands in a text: members of an object in their order, repeated keys included,
and numbers as numerals. An escape may name half of a surrogate pair; such text can be skipped but
stands for no string.

Key definitions: `Json`, `Json.ofDouble`, `Json.ofNat`, `Json.ofText`.
-/
import GateCircuit.Decimal.Numeral
import GateCircuit.Double.Shortest

namespace GateCircuit

/-- A JSON value. -/
inductive Json where
  | null
  | bool (value : Bool)
  | number (numeral : Numeral)
  /-- a string, unless its escapes do not pair up -/
  | string (text : Option String)
  | array (items : List Json)
  | object (members : List (Option String × Json))
  deriving Repr

namespace Json

/-- A natural number. -/
def ofNat (n : Nat) : Json := number (.ofNat n)

/-- A string. -/
def ofText (s : String) : Json := string (some s)

/-- A double as the shortest decimal that reads back, with a point or an exponent; null if it is
infinite or no number. -/
def ofDouble (x : Float) : Json :=
  match Double.exact x with
  | .finite negative m q => number (.ofDecimal (Double.shortest negative m q))
  | _ => null

/-- An object with readable keys. -/
def ofFields (fields : List (String × Json)) : Json :=
  object (fields.map fun (key, value) => (some key, value))

end Json
end GateCircuit
