/-
# Scalars

A scalar is a plain word, or text in single or double quotes. A gap inside a scalar that holds line
breaks is folded: a lone line feed becomes a blank, a first line feed before other breaks is lost,
and so are the blanks. A backslash before a break takes the break away.

Key definitions: `gapText`, `Piece`, `foldPieces`, `scanSingle`, `scanDouble`, `scanPlain`.
-/
import GateCircuit.Json.Token
import GateCircuit.Yaml.Cell

namespace GateCircuit
namespace Yaml

/-- What a gap of blanks and breaks inside a scalar stands for; `joined` if it follows a break that
a backslash takes away. -/
def gapText (joined : Bool) (gap : List Char) : List Char :=
  match joined, gap.filter isBreak with
  | true, breaks => breaks
  | false, [] => gap
  | false, ['\n'] => [' ']
  | false, '\n' :: breaks => breaks
  | false, breaks => breaks

/-- A part of a quoted scalar. -/
inductive Piece where
  /-- a character as it is written, which may be folded -/
  | written (c : Char)
  /-- a character that comes from an escape -/
  | escaped (c : Char)
  /-- a break with a backslash before it -/
  | join
  deriving DecidableEq, Repr

/-- The text of a quoted scalar. `gap` holds the blanks and breaks right before the pieces, last one
first, and `joined` says whether they follow a join. -/
def foldPieces (joined : Bool) (gap : List Char) : List Piece → List Char
  | [] => gapText joined gap.reverse
  | .written c :: pieces =>
    if isGap c then foldPieces joined (c :: gap) pieces
    else gapText joined gap.reverse ++ c :: foldPieces false [] pieces
  | .escaped c :: pieces => gapText joined gap.reverse ++ c :: foldPieces false [] pieces
  | .join :: pieces => gapText joined gap.reverse ++ foldPieces true [] pieces

/-- The text of a quoted scalar. -/
def fold (pieces : List Piece) : String := String.ofList (foldPieces false [] pieces)

/-- The pieces in single quotes after the opening one; a quote inside is written twice. No mark
between documents may stand in quotes. -/
def scanSingle : List Cell → Option (List Piece × List Cell)
  | [] => none
  | a :: rest =>
    if atDocumentMark (a :: rest) then none
    else if a.char = '\'' then
      match rest with
      | b :: more =>
        if b.char = '\'' then
          (scanSingle more).map fun (pieces, after) => (.written '\'' :: pieces, after)
        else some ([], rest)
      | [] => some ([], [])
    else (scanSingle rest).map fun (pieces, after) => (.written a.char :: pieces, after)

/-- What a letter after a backslash stands for. -/
def letterEscape? (c : Char) : Option Char :=
  match c with
  | '0' => some '\x00'
  | 'a' => some '\x07'
  | 'b' => some '\x08'
  | 't' => some '\t'
  | '\t' => some '\t'
  | 'n' => some '\n'
  | 'v' => some '\x0b'
  | 'f' => some '\x0c'
  | 'r' => some '\r'
  | 'e' => some '\x1b'
  | ' ' => some ' '
  | '"' => some '"'
  | '/' => some '/'
  | '\\' => some '\\'
  | 'N' => some '\u0085'
  | '_' => some '\u00a0'
  | 'L' => some '\u2028'
  | 'P' => some '\u2029'
  | _ => none

/-- How many hexadecimal digits follow a letter after a backslash. -/
def codeLength? (c : Char) : Option Nat :=
  match c with
  | 'x' => some 2
  | 'u' => some 4
  | 'U' => some 8
  | _ => none

/-- The character whose code the first `digits` cells write. -/
def codeEscape? (digits : Nat) (text : List Cell) : Option Char := do
  let run := (text.take digits).map Cell.char
  if run.length < digits then none
  let code ← JsonToken.hexNumber? run
  if code.isValidChar then some (Char.ofNat code) else none

/-- The piece after a backslash, and the text behind it. -/
def scanEscape (text : List Cell) : Option (Piece × List Cell) := do
  let cell ← text.head?
  let rest := text.tail
  match letterEscape? cell.char, codeLength? cell.char with
  | some c, _ => some (.escaped c, rest)
  | none, some digits => some (.escaped (← codeEscape? digits rest), rest.drop digits)
  | none, none => if isBreak cell.char then some (.join, rest) else none

/-- The pieces in double quotes after the opening one; each takes a step of `fuel`. No mark between
documents may stand in quotes. -/
def scanDouble : Nat → List Cell → Option (List Piece × List Cell)
  | 0, _ => none
  | _, [] => none
  | fuel + 1, a :: rest =>
    if atDocumentMark (a :: rest) then none
    else if a.char = '"' then some ([], rest)
    else if a.char = '\\' then do
      let (piece, rest) ← scanEscape rest
      let (pieces, after) ← scanDouble fuel rest
      some (piece :: pieces, after)
    else (scanDouble fuel rest).map fun (pieces, after) => (.written a.char :: pieces, after)

/-- Whether a character is a bracket or comma of a flow collection. -/
def isFlowMark (c : Char) : Bool := ",[]\x7b\x7d".toList.contains c

/-- Whether a plain scalar may begin here: not with an indicator, unless it is a dash, or outside of
brackets a colon or question mark, with a word right after it. -/
def startsPlain (flow : Bool) : List Cell → Bool
  | [] => false
  | cell :: rest =>
    if cell.char = '-' then !atGap rest
    else if cell.char = '?' || cell.char = ':' then !flow && !atGap rest
    else !(isGap cell.char || isFlowMark cell.char || "#&*!|>'\"%@\x60".toList.contains cell.char)

/-- The characters of a plain scalar up to a gap. It ends at the colon after a key, and between
brackets at a mark of the collection; there no colon may touch such a mark. -/
def plainChunk (flow : Bool) : List Cell → Option (List Char × List Cell)
  | [] => some ([], [])
  | cell :: rest =>
    let touches := rest.head?.any fun next => isFlowMark next.char || next.char == '?'
    if isGap cell.char then some ([], cell :: rest)
    else if flow && cell.char == ':' && touches then none
    else if (cell.char = ':' && atGap rest) || (flow && isFlowMark cell.char) then
      some ([], cell :: rest)
    else (plainChunk flow rest).map fun (chunk, after) => (cell.char :: chunk, after)

/-- Whether the blanks that indent the lines of a gap are no tabs, up to the column `least`. -/
def wellIndented (least : Nat) (gap : List Cell) : Bool :=
  (gap.dropWhile fun cell => !isBreak cell.char).all fun cell =>
    cell.char != '\t' || least ≤ cell.place.column

/-- Whether a plain scalar goes on after a gap: on the same line or a line indented to `least`, and
neither at a comment nor at a mark between documents. -/
def continuesPlain (flow : Bool) (least : Nat) : List Cell → Bool
  | [] => false
  | cell :: rest =>
    (flow || least ≤ cell.place.column) && cell.char != '#' && !atDocumentMark (cell :: rest)

/-- A plain scalar with the text behind it and behind the gap after it, and whether that gap breaks
the line. Each part between gaps takes a step of `fuel`. -/
def scanPlain (flow : Bool) (least : Nat) : Nat → List Cell → Option (List Char × List Cell × Bool)
  | 0, _ => none
  | fuel + 1, text => do
    let (chunk, after) ← plainChunk flow text
    let gap := after.takeWhile fun cell => isGap cell.char
    let next := after.dropWhile fun cell => isGap cell.char
    let ended := some (chunk, next, gap.any fun cell => isBreak cell.char)
    if !wellIndented least gap then none
    else if gap.isEmpty || !continuesPlain flow least next then ended
    else
      let (more, rest, broken) ← scanPlain flow least fuel next
      if more.isEmpty then ended
      else some (chunk ++ gapText false (gap.map Cell.char) ++ more, rest, broken)

end Yaml
end GateCircuit
