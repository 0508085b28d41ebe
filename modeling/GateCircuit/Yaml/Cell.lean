/-
# Characters and their places

A YAML text is read as a list of cells, each a character with its place, because the column of a
word decides which block it belongs to, and its line and its index how far a key may reach. A
carriage return, a line feed, both together and the next-line character are one and the same line
break; the line and paragraph separators are breaks that stay what they are.

Key definitions: `Place`, `Cell`, `cells?`, `skipGap`.
-/
import GateCircuit.Decimal.Basic

namespace GateCircuit
namespace Yaml

/-- A place in a text; all counts begin with zero. -/
structure Place where
  line : Nat := 0
  column : Nat := 0
  /-- the number of characters in front of the place -/
  index : Nat := 0
  deriving DecidableEq, Repr

/-- A character and the place that it stands at. -/
structure Cell where
  char : Char
  place : Place
  deriving DecidableEq, Repr

/-- Whether a character is a blank within a line. -/
def isInlineBlank (c : Char) : Bool := c == ' ' || c == '\t'

/-- Whether a character breaks a line, where all usual breaks are line feeds. -/
def isBreak (c : Char) : Bool := c == '\n' || c == '\u2028' || c == '\u2029'

/-- Whether a character stands between words. -/
def isGap (c : Char) : Bool := isInlineBlank c || isBreak c

/-- A character, where a carriage return and the next-line character are line feeds. -/
def unifyBreak (c : Char) : Char := if c = '\r' ∨ c = '\u0085' then '\n' else c

namespace Place

/-- The place behind a character. -/
def next (p : Place) (c : Char) : Place :=
  if isBreak c then { line := p.line + 1, column := 0, index := p.index + 1 }
  else { p with column := p.column + 1, index := p.index + 1 }

end Place

/-- The cells of a text whose first character stands at `place`. -/
def cellsFrom (place : Place) : List Char → List Cell
  | [] => []
  | '\r' :: '\n' :: cs =>
    let after := place.next '\n'
    ⟨'\n', place⟩ :: cellsFrom { after with index := after.index + 1 } cs
  | c :: cs => ⟨unifyBreak c, place⟩ :: cellsFrom (place.next (unifyBreak c)) cs

/-- Whether a character may stand in a text: all but the control characters, of which tabs and line
breaks are allowed. -/
def isAllowed (c : Char) : Bool :=
  let code := c.toNat
  c == '\t' || c == '\n' || c == '\r' || code == 0x85 || (0x20 ≤ code && code ≤ 0x7e) ||
    (0xa0 ≤ code && code ≠ 0xfffe && code ≠ 0xffff)

/-- The cells of a text in which all characters are allowed. -/
def cells? (text : String) : Option (List Cell) :=
  if text.toList.all isAllowed then some (cellsFrom {} text.toList) else none

/-- Whether a text starts with a given character. -/
def startsWith (c : Char) (text : List Cell) : Bool := text.head?.any (·.char == c)

/-- Whether a text is at its end or at a blank or a line break. -/
def atGap (text : List Cell) : Bool := text.head?.all fun cell => isGap cell.char

/-- Whether the text starts a line with three times the character `mark` and a gap. -/
def atMark (mark : Char) : List Cell → Bool
  | a :: b :: c :: rest =>
    a.place.column == 0 && a.char == mark && b.char == mark && c.char == mark && atGap rest
  | _ => false

/-- Whether the text is at a mark between documents. -/
def atDocumentMark (text : List Cell) : Bool := atMark '-' text || atMark '.' text

/-- The text after blanks, line breaks and comments, and whether a key may begin there. `keyAllowed`
says whether one may before, and `commented` that the text is within a comment. Outside of brackets
a key may begin on each new line, and where it may, a tab is no blank. A byte order mark at the
start of a line is skipped. -/
def skipFrom (flow commented keyAllowed : Bool) : List Cell → List Cell × Bool
  | [] => ([], keyAllowed)
  | cell :: rest =>
    if isBreak cell.char then skipFrom flow false (keyAllowed || !flow) rest
    else if commented then skipFrom flow true keyAllowed rest
    else if cell.char = ' ' || (cell.char = '\t' && (flow || !keyAllowed)) ||
        (cell.char = '\uFEFF' && cell.place.column == 0) then
      skipFrom flow false keyAllowed rest
    else if cell.char = '#' then skipFrom flow true keyAllowed rest
    else (cell :: rest, keyAllowed)

/-- The text after blanks, line breaks and comments, and whether a key may begin there. -/
def skipGap (flow keyAllowed : Bool) (text : List Cell) : List Cell × Bool :=
  skipFrom flow false keyAllowed text

end Yaml
end GateCircuit
