/-
# JSON tokens

A JSON text is cut into tokens: brackets, commas, colons, names, numbers and strings, with white
space between them. A number has no superfluous zeros in front, a digit on each side of its point,
and a digit in its exponent; a string holds no bare control characters.

Key definitions: `JsonToken`, `JsonToken.scanNumber`, `JsonToken.scanUnits`, `JsonToken.lex`.
-/
import GateCircuit.Decimal.Numeral

namespace GateCircuit

/-- A token of a JSON text. -/
inductive JsonToken where
  | beginArray
  | endArray
  | beginObject
  | endObject
  | comma
  | colon
  | null
  | bool (value : Bool)
  | number (numeral : Numeral)
  | string (text : Option String)
  deriving DecidableEq, Repr

namespace JsonToken

/-- White space between tokens. -/
def isSpace (c : Char) : Bool := c == ' ' || c == '\t' || c == '\n' || c == '\r'

/-- The value of a hexadecimal digit. -/
def hexDigit? (c : Char) : Option Nat :=
  if 'a' ≤ c ∧ c ≤ 'f' then some (c.toNat - 'a'.toNat + 10)
  else if 'A' ≤ c ∧ c ≤ 'F' then some (c.toNat - 'A'.toNat + 10)
  else Decimal.digit? c

/-- The number that hexadecimal digits write. -/
def hexNumber? (run : List Char) : Option Nat :=
  run.foldlM (fun n c => (hexDigit? c).map (16 * n + ·)) 0

/-- The character that stands for itself or something simple after a backslash. -/
def simpleEscape? (c : Char) : Option Char :=
  match c with
  | '"' => some '"'
  | '\\' => some '\\'
  | '/' => some '/'
  | 'b' => some '\x08'
  | 'f' => some '\x0c'
  | 'n' => some '\n'
  | 'r' => some '\r'
  | 't' => some '\t'
  | _ => none

/-- The code units of a string after its opening quote, and what follows its closing quote. -/
def scanUnits : List Char → Option (List Nat × List Char)
  | [] => none
  | '"' :: rest => some ([], rest)
  | '\\' :: 'u' :: a :: b :: c :: d :: rest => do
    let unit ← hexNumber? [a, b, c, d]
    let (units, rest) ← scanUnits rest
    some (unit :: units, rest)
  | '\\' :: c :: rest => do
    let plain ← simpleEscape? c
    let (units, rest) ← scanUnits rest
    some (plain.toNat :: units, rest)
  | c :: rest =>
    if c.toNat < 32 then none
    else do
      let (units, rest) ← scanUnits rest
      some (c.toNat :: units, rest)

/-- The characters of a list of code units, in which surrogates come in pairs. -/
def joinUnits : List Nat → Option (List Char)
  | [] => some []
  | unit :: units =>
    if 0xD800 ≤ unit ∧ unit < 0xDC00 then
      match units with
      | low :: units =>
        if 0xDC00 ≤ low ∧ low < 0xE000 then
          (joinUnits units).map
            (Char.ofNat (0x10000 + (unit - 0xD800) * 0x400 + (low - 0xDC00)) :: ·)
        else none
      | [] => none
    else if 0xDC00 ≤ unit ∧ unit < 0xE000 then none
    else (joinUnits units).map (Char.ofNat unit :: ·)

/-- A number without its sign: no zero in front of other digits, and digits after a point. -/
def scanMagnitude (negative : Bool) (cs : List Char) : Option (JsonToken × List Char) := do
  let whole := cs.takeWhile Decimal.isDigit
  let (fraction, rest) := Decimal.scanFraction (cs.dropWhile Decimal.isDigit)
  if whole.isEmpty || (whole.head? == some '0' && whole.length != 1) || fraction == some [] then
    none
  let (power, rest) ← Decimal.scanPower rest
  some (number { negative, whole, fraction := fraction.getD [], power }, rest)

/-- A number. -/
def scanNumber : List Char → Option (JsonToken × List Char)
  | '-' :: cs => scanMagnitude true cs
  | cs => scanMagnitude false cs

/-- The token that a text starts with, and the rest of the text. -/
def scan : List Char → Option (JsonToken × List Char)
  | '[' :: rest => some (beginArray, rest)
  | ']' :: rest => some (endArray, rest)
  | '\x7b' :: rest => some (beginObject, rest)
  | '\x7d' :: rest => some (endObject, rest)
  | ',' :: rest => some (comma, rest)
  | ':' :: rest => some (colon, rest)
  | 'n' :: 'u' :: 'l' :: 'l' :: rest => some (null, rest)
  | 't' :: 'r' :: 'u' :: 'e' :: rest => some (bool true, rest)
  | 'f' :: 'a' :: 'l' :: 's' :: 'e' :: rest => some (bool false, rest)
  | '"' :: rest =>
    (scanUnits rest).map fun (units, rest) => (string ((joinUnits units).map String.ofList), rest)
  | cs => scanNumber cs

/-- At most `fuel` tokens and the white space around them, which must take up the whole text. -/
def lexAll : Nat → List Char → Option (List JsonToken)
  | fuel, cs =>
    match cs.dropWhile isSpace, fuel with
    | [], _ => some []
    | _, 0 => none
    | cs, fuel + 1 => do
      let (token, rest) ← scan cs
      let tokens ← lexAll fuel rest
      some (token :: tokens)

/-- The tokens of a text. Each takes up a character at least. -/
def lex (cs : List Char) : Option (List JsonToken) := lexAll cs.length cs

end JsonToken
end GateCircuit
