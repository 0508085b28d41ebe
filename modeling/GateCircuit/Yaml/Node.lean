/-
# Nodes

A document is a tree of scalars, sequences and mappings, and a text is one document. Its tokens show
how it is nested: blocks have a begin and an end, save that a sequence may stand without them as a
key or value of a mapping. Where a node is missing, an empty scalar takes its place.

Key definitions: `Node`, `Node.read`, `Node.ofTokens?`, `parse`.
-/
import GateCircuit.Yaml.Token

namespace GateCircuit
namespace Yaml

/-- A node of a document. Only plain scalars can be numbers. -/
inductive Node where
  | scalar (text : String) (plain : Bool)
  | sequence (items : List Node)
  | mapping (entries : List (Node × Node))
  deriving Repr

/-- Where a node stands. -/
inductive Site where
  /-- between brackets, where no block can be -/
  | flow
  /-- as a document, or as an item of a sequence -/
  | block
  /-- as a key or value of a mapping without brackets, where dashes need no block -/
  | entry
  deriving DecidableEq, Repr

namespace Node

/-- The node that stands where nothing is written. -/
def empty : Node := .scalar "" true

mutual

/-- The node that the tokens start with. -/
def read : Nat → Site → List Token → Option (Node × List Token)
  | 0, _, _ => none
  | fuel + 1, site, tokens =>
    match tokens with
    | .scalar text plain :: rest => some (.scalar text plain, rest)
    | .openSequence :: rest =>
      (flowItems fuel rest).map fun (items, rest) => (.sequence items, rest)
    | .openMapping :: rest =>
      (flowEntries fuel rest).map fun (entries, rest) => (.mapping entries, rest)
    | .beginSequence :: rest =>
      if site = .flow then none
      else (blockItems fuel rest).map fun (items, rest) => (.sequence items, rest)
    | .beginMapping :: rest =>
      if site = .flow then none
      else (blockEntries fuel rest).map fun (entries, rest) => (.mapping entries, rest)
    | .dash :: rest =>
      if site = .entry then
        (looseItems fuel (.dash :: rest)).map fun (items, rest) => (.sequence items, rest)
      else none
    | _ => none

/-- The node that the tokens start with, or the empty one if they start with one of `ends`. -/
def readOr : Nat → Site → List Token → List Token → Option (Node × List Token)
  | 0, _, _, _ => none
  | fuel + 1, site, ends, tokens =>
    if tokens.head?.any ends.contains then some (empty, tokens) else read fuel site tokens

/-- The value that the tokens start with, or the empty node if there is no colon. -/
def readValue : Nat → Site → List Token → List Token → Option (Node × List Token)
  | 0, _, _, _ => none
  | fuel + 1, site, ends, tokens =>
    match tokens with
    | .value :: rest => readOr fuel site ends rest
    | _ => some (empty, tokens)

/-- The items of a sequence in a block, up to the end of the block. -/
def blockItems : Nat → List Token → Option (List Node × List Token)
  | 0, _ => none
  | fuel + 1, tokens =>
    match tokens with
    | .endBlock :: rest => some ([], rest)
    | .dash :: rest => do
      let (item, rest) ← readOr fuel .block [.dash, .endBlock] rest
      let (items, rest) ← blockItems fuel rest
      some (item :: items, rest)
    | _ => none

/-- The items of a sequence without a block, as far as there are dashes. -/
def looseItems : Nat → List Token → Option (List Node × List Token)
  | 0, _ => none
  | fuel + 1, tokens =>
    match tokens with
    | .dash :: rest => do
      let (item, rest) ← readOr fuel .block [.dash, .key, .value, .endBlock] rest
      let (items, rest) ← looseItems fuel rest
      some (item :: items, rest)
    | _ => some ([], tokens)

/-- The entries of a mapping in a block, up to the end of the block. -/
def blockEntries : Nat → List Token → Option (List (Node × Node) × List Token)
  | 0, _ => none
  | fuel + 1, tokens =>
    match tokens with
    | .endBlock :: rest => some ([], rest)
    | .key :: rest => do
      let (key, rest) ← readOr fuel .entry [.key, .value, .endBlock] rest
      let (value, rest) ← readValue fuel .entry [.key, .value, .endBlock] rest
      let (entries, rest) ← blockEntries fuel rest
      some ((key, value) :: entries, rest)
    | _ => none

/-- The items of a sequence in brackets, from an item or the closing bracket on. An item that is a
key with its value is a mapping of one entry. -/
def flowItems : Nat → List Token → Option (List Node × List Token)
  | 0, _ => none
  | fuel + 1, tokens =>
    match tokens with
    | .closeSequence :: rest => some ([], rest)
    | _ => do
      let (item, rest) ←
        match tokens with
        | .key :: rest => do
          let (key, rest) ← readOr fuel .flow [.value, .comma, .closeSequence] rest
          let (value, rest) ← readValue fuel .flow [.comma, .closeSequence] rest
          some (.mapping [(key, value)], rest)
        | _ => read fuel .flow tokens
      match rest with
      | .comma :: rest =>
        let (items, rest) ← flowItems fuel rest
        some (item :: items, rest)
      | .closeSequence :: rest => some ([item], rest)
      | _ => none

/-- The entries of a mapping in braces, from an entry or the closing brace on. -/
def flowEntries : Nat → List Token → Option (List (Node × Node) × List Token)
  | 0, _ => none
  | fuel + 1, tokens =>
    match tokens with
    | .closeMapping :: rest => some ([], rest)
    | _ => do
      let (entry, rest) ←
        match tokens with
        | .key :: rest => do
          let (key, rest) ← readOr fuel .flow [.value, .comma, .closeMapping] rest
          let (value, rest) ← readValue fuel .flow [.comma, .closeMapping] rest
          some ((key, value), rest)
        | _ => (read fuel .flow tokens).map fun (key, rest) => ((key, empty), rest)
      match rest with
      | .comma :: rest =>
        let (entries, rest) ← flowEntries fuel rest
        some (entry :: entries, rest)
      | .closeMapping :: rest => some ([entry], rest)
      | _ => none

end

/-- The node of the only document. No node needs more than two steps a token. A document without a
mark in front cannot be empty. -/
def ofTokens? (tokens : List Token) : Option Node := do
  let fuel := 2 * tokens.length + 2
  let (node, rest) ←
    match tokens with
    | [.documentStart] => some (empty, [])
    | .documentStart :: rest => readOr fuel .block [.documentStart, .documentEnd] rest
    | _ => read fuel .block tokens
  if rest.all (· == .documentEnd) then some node else none

end Node

/-- The node that a text writes. -/
def parse (text : String) : Option Node := do Node.ofTokens? (← Token.scan (← cells? text))

end Yaml
end GateCircuit
