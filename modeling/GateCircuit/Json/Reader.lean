/-
# Reading JSON

A JSON text is one value with nothing after it.

Key definition: `Json.parse`.
-/
import GateCircuit.Json.Basic
import GateCircuit.Json.Token

namespace GateCircuit
namespace Json

mutual

/-- The value that the tokens start with, and the tokens after it; nesting is cut off at `fuel`. -/
def value : Nat → List JsonToken → Option (Json × List JsonToken)
  | 0, _ => none
  | fuel + 1, tokens =>
    match tokens with
    | .null :: rest => some (.null, rest)
    | .bool b :: rest => some (.bool b, rest)
    | .number numeral :: rest => some (.number numeral, rest)
    | .string text :: rest => some (.string text, rest)
    | .beginArray :: .endArray :: rest => some (.array [], rest)
    | .beginArray :: rest => (items fuel rest).map fun (list, rest) => (.array list, rest)
    | .beginObject :: .endObject :: rest => some (.object [], rest)
    | .beginObject :: rest => (members fuel rest).map fun (list, rest) => (.object list, rest)
    | _ => none

/-- The items of an array up to its end; there is at least one. -/
def items : Nat → List JsonToken → Option (List Json × List JsonToken)
  | 0, _ => none
  | fuel + 1, tokens => do
    let (first, rest) ← value fuel tokens
    match rest with
    | .endArray :: rest => some ([first], rest)
    | .comma :: rest =>
      let (list, rest) ← items fuel rest
      some (first :: list, rest)
    | _ => none

/-- The members of an object up to its end; there is at least one. -/
def members : Nat → List JsonToken → Option (List (Option String × Json) × List JsonToken)
  | 0, _ => none
  | fuel + 1, tokens =>
    match tokens with
    | .string key :: .colon :: rest => do
      let (first, rest) ← value fuel rest
      match rest with
      | .endObject :: rest => some ([(key, first)], rest)
      | .comma :: rest =>
        let (list, rest) ← members fuel rest
        some ((key, first) :: list, rest)
      | _ => none
    | _ => none

end

/-- The value that a text writes. No value needs more steps than twice its tokens. -/
def parse (text : String) : Option Json := do
  let tokens ← JsonToken.lex text.toList
  let (result, rest) ← value (2 * tokens.length) tokens
  if rest.isEmpty then some result else none

end Json
end GateCircuit
