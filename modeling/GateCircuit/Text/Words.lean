/-
# Words and counts

Text is cut into words at white space, in the sense of the character property of that name; and a
count is read from a run of decimal digits.

Key definitions: `isBlank`, `words`, `readCount`.
-/
import GateCircuit.Decimal.Basic
import GateCircuit.Scalar

namespace GateCircuit

/-- Whether a character is white space. -/
def isBlank (c : Char) : Bool :=
  let n := c.toNat
  (9 ≤ n && n ≤ 13) || n == 0x20 || n == 0x85 || n == 0xA0 || n == 0x1680 ||
    (0x2000 ≤ n && n ≤ 0x200A) || n == 0x2028 || n == 0x2029 || n == 0x202F || n == 0x205F ||
    n == 0x3000

/-- The words of `cs`, if the letters `begun`, last one first, stand right before it. -/
def wordsAfter (begun : List Char) : List Char → List (List Char)
  | [] => if begun.isEmpty then [] else [begun.reverse]
  | c :: cs =>
    if isBlank c then
      if begun.isEmpty then wordsAfter [] cs else begun.reverse :: wordsAfter [] cs
    else wordsAfter (c :: begun) cs

/-- The words of a text: its longest runs without white space. -/
def words (cs : List Char) : List (List Char) := wordsAfter [] cs

/-- A natural from one or more decimal digits and nothing else. -/
def readNatural (cs : List Char) : Option Nat :=
  if !cs.isEmpty && cs.all Decimal.isDigit then some (Decimal.natural 0 cs) else none

/-- A count of at most `maxCount`, with a plus sign in front or without one. -/
def readCount (cs : List Char) : Option Nat :=
  let body := if cs.head? = some '+' then cs.tail else cs
  (readNatural body).filter (· ≤ maxCount)

end GateCircuit
