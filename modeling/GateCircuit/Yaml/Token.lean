/-
# Tokens

A text is cut into tokens: scalars, marks, brackets, and the begin and end of blocks, which are not
written but follow from indentation. A block begins where a dash or a key stands further to the
right than the block around it, and ends before the first word that stands further to the left.
That a word is a key shows only at the colon behind it; then the tokens of a key are put in front of
it. A key is no longer than a line and 1024 characters. Anchors, tags, block scalars and directives
are not read.

Key definitions: `Token`, `Layout`, `Layout.step`, `Token.scan`.
-/
import GateCircuit.Yaml.Scalar

namespace GateCircuit
namespace Yaml

/-- A token of a text. -/
inductive Token where
  | documentStart
  | documentEnd
  | beginSequence
  | beginMapping
  | endBlock
  | openSequence
  | closeSequence
  | openMapping
  | closeMapping
  | comma
  | dash
  | key
  | value
  | scalar (text : String) (plain : Bool)
  deriving DecidableEq, Repr

/-- A word or bracket that may turn out to be a key. -/
structure KeyStart where
  place : Place
  /-- whether it must, because it stands where the keys of its block stand -/
  required : Bool
  /-- the number of tokens in front of it -/
  position : Nat
  deriving DecidableEq, Repr

/-- The longest way from the start of a key to its colon. -/
def maxKeyLength : Nat := 1024

/-- Whether a colon at `here` is too far from the start of a key. -/
def KeyStart.isStale (k : KeyStart) (here : Place) : Bool :=
  k.place.line < here.line || k.place.index + maxKeyLength < here.index

/-- What has been read up to some place of a text. -/
structure Layout where
  tokens : Array Token := #[]
  /-- the columns of the blocks that are open, innermost first -/
  columns : List Nat := []
  /-- what may be a key inside the innermost brackets, or outside of all -/
  candidate : Option KeyStart := none
  /-- the candidates around each open bracket, innermost first -/
  outer : List (Option KeyStart) := []
  /-- whether a key may begin at the place -/
  keyAllowed : Bool := true
  deriving DecidableEq, Repr

namespace Layout

/-- Whether the place is between brackets. -/
def inFlow (l : Layout) : Bool := !l.outer.isEmpty

/-- The least column of a line that goes on with a scalar. -/
def leastColumn (l : Layout) : Nat := l.columns.head?.elim 0 (· + 1)

/-- Adds a token. -/
def push (l : Layout) (token : Token) : Layout := { l with tokens := l.tokens.push token }

/-- Puts a token behind the first `position` tokens. -/
def insert (l : Layout) (position : Nat) (token : Token) : Layout :=
  { l with tokens := l.tokens.insertIdxIfInBounds position token }

/-- Says whether a key may begin at the place. -/
def allowKey (l : Layout) (allowed : Bool) : Layout := { l with keyAllowed := allowed }

/-- Gives up a candidate, unless it must be a key. -/
def giveUp (candidate : Option KeyStart) : Option (Option KeyStart) :=
  if candidate.any KeyStart.required then none else some none

/-- Gives up the candidate. -/
def dropKey (l : Layout) : Option Layout :=
  (giveUp l.candidate).map fun candidate => { l with candidate }

/-- Gives up all candidates from which the place is too far. -/
def dropStale (l : Layout) (here : Place) : Option Layout := do
  let check (candidate : Option KeyStart) : Option (Option KeyStart) :=
    if candidate.any (·.isStale here) then giveUp candidate else some candidate
  some { l with candidate := ← check l.candidate, outer := ← l.outer.mapM check }

/-- Makes the word or bracket at the place the candidate, if a key may begin there. -/
def saveKey (l : Layout) (here : Place) : Option Layout := do
  if l.keyAllowed then
    let l ← l.dropKey
    let required := !l.inFlow && l.columns.head? == some here.column
    some { l with candidate := some { place := here, required, position := l.tokens.size } }
  else some l

/-- Ends the innermost blocks as long as their columns are `ended`; none between brackets. -/
def closeBlocks (l : Layout) (ended : Nat → Bool) : Layout :=
  let count := if l.inFlow then 0 else (l.columns.takeWhile ended).length
  { l with
    tokens := l.tokens ++ Array.replicate count Token.endBlock
    columns := l.columns.drop count }

/-- Ends all blocks. -/
def closeAllBlocks (l : Layout) : Layout := l.closeBlocks fun _ => true

/-- Begins a block at `column`, if it is further to the right than the block around it; its token
comes after the first `position` tokens. -/
def openBlock (l : Layout) (column position : Nat) (token : Token) : Layout :=
  if !l.inFlow && l.columns.head?.all (· < column) then
    { l.insert position token with columns := column :: l.columns }
  else l

/-- Begins a block with the dash or mark at the place; outside of brackets that is only allowed
where a key is. -/
def openBlockHere (l : Layout) (here : Place) (token : Token) : Option Layout :=
  if l.inFlow || l.keyAllowed then some (l.openBlock here.column l.tokens.size token) else none

/-- An opening bracket. -/
def bracket (l : Layout) (here : Place) (token : Token) : Option Layout := do
  let l ← l.saveKey here
  some ({ l with candidate := none, outer := l.candidate :: l.outer }.push token |>.allowKey true)

/-- A closing bracket. -/
def unbracket (l : Layout) (token : Token) : Option Layout := do
  let l ← l.dropKey
  let l := match l.outer with
    | [] => l
    | candidate :: outer => { l with candidate, outer }
  some (l.push token |>.allowKey false)

/-- A mark between documents. -/
def documentMark (l : Layout) (token : Token) : Option Layout := do
  some ((← l.closeAllBlocks.dropKey).push token |>.allowKey false)

/-- A comma. -/
def comma (l : Layout) : Option Layout := do some ((← l.dropKey).push .comma |>.allowKey true)

/-- A dash with a gap behind it. -/
def dash (l : Layout) (here : Place) : Option Layout := do
  let l ← l.openBlockHere here .beginSequence
  some ((← l.dropKey).push .dash |>.allowKey true)

/-- A question mark that announces a key. -/
def questionMark (l : Layout) (here : Place) : Option Layout := do
  let l ← l.openBlockHere here .beginMapping
  some ((← l.dropKey).push .key |>.allowKey !l.inFlow)

/-- A colon that ends a key: the candidate, or else a key with a question mark or no key at all. -/
def colon (l : Layout) (here : Place) : Option Layout :=
  match l.candidate with
  | some k =>
    let keyed := { l.insert k.position .key with candidate := none }
    some ((keyed.openBlock k.place.column k.position .beginMapping).push .value |>.allowKey false)
  | none => do
    let l ← l.openBlockHere here .beginMapping
    some (l.push .value |>.allowKey !l.inFlow)

/-- A scalar in quotes of one kind or the other. -/
def quoted (l : Layout) (here : Place) (scanned : Option (List Piece × List Cell)) :
    Option (Layout × List Cell) := do
  let l ← l.saveKey here
  let (pieces, after) ← scanned
  some (l.push (.scalar (fold pieces) false) |>.allowKey false, after)

/-- A plain scalar. A key may begin behind it if it is followed by a line break. -/
def plain (l : Layout) (here : Place) (scanned : Option (List Char × List Cell × Bool)) :
    Option (Layout × List Cell) := do
  let l ← l.saveKey here
  let (chars, after, broken) ← scanned
  some (l.push (.scalar (String.ofList chars) true) |>.allowKey broken, after)

/-- The next token, which begins with `cell`, where `rest` is the text behind it, of which `fuel`
cells at most are read. -/
def token (l : Layout) (fuel : Nat) (cell : Cell) (rest : List Cell) :
    Option (Layout × List Cell) :=
  let text := cell :: rest
  let here := cell.place
  let single (next : Option Layout) : Option (Layout × List Cell) := next.map (·, rest)
  let lone := l.inFlow || atGap rest
  if here.column = 0 && cell.char = '%' then none
  else if atMark '-' text then (l.documentMark .documentStart).map (·, text.drop 3)
  else if atMark '.' text then (l.documentMark .documentEnd).map (·, text.drop 3)
  else if cell.char = '[' then single (l.bracket here .openSequence)
  else if cell.char = '\x7b' then single (l.bracket here .openMapping)
  else if cell.char = ']' then single (l.unbracket .closeSequence)
  else if cell.char = '\x7d' then single (l.unbracket .closeMapping)
  else if cell.char = ',' then single l.comma
  else if cell.char = '-' && atGap rest then single (l.dash here)
  else if cell.char = '?' && lone then single (l.questionMark here)
  else if cell.char = ':' && lone then single (l.colon here)
  else if cell.char = '\'' then l.quoted here (scanSingle rest)
  else if cell.char = '"' then l.quoted here (scanDouble (fuel + 1) rest)
  else if startsPlain l.inFlow text then
    l.plain here (scanPlain l.inFlow l.leastColumn (fuel + 1) text)
  else none

/-- The next token with the ends of blocks in front of it. -/
def step (l : Layout) (fuel : Nat) (cell : Cell) (rest : List Cell) :
    Option (Layout × List Cell) := do
  let l ← l.dropStale cell.place
  (l.closeBlocks (cell.place.column < ·)).token fuel cell rest

/-- All tokens up to the end of the text. Each takes up a character at least, so that a `fuel` of as
many steps as there are characters suffices. -/
def run (l : Layout) : Nat → List Cell → Option (List Token)
  | fuel, text =>
    let (text, keyAllowed) := skipGap l.inFlow l.keyAllowed text
    let l := l.allowKey keyAllowed
    match text, fuel with
    | [], _ => l.closeAllBlocks.dropKey.map fun l => l.tokens.toList
    | _, 0 => none
    | cell :: rest, fuel + 1 => do
      let (l, rest) ← l.step fuel cell rest
      l.run fuel rest

end Layout

/-- The tokens of a text. -/
def Token.scan (text : List Cell) : Option (List Token) := Layout.run {} text.length text

end Yaml
end GateCircuit
