/-
# Writing JSON

A value is written on one line, or indented with two blanks a level. Control characters are escaped,
and so are quotes and backslashes.

Key definitions: `Json.compact`, `Json.pretty`.
-/
import GateCircuit.Json.Basic

namespace GateCircuit
namespace Json

/-- A character inside a string. -/
def escaped (c : Char) : List Char :=
  match c with
  | '"' => ['\\', '"']
  | '\\' => ['\\', '\\']
  | '\x08' => ['\\', 'b']
  | '\x0c' => ['\\', 'f']
  | '\n' => ['\\', 'n']
  | '\r' => ['\\', 'r']
  | '\t' => ['\\', 't']
  | c =>
    if c.toNat < 32 then
      ['\\', 'u', '0', '0', Nat.digitChar (c.toNat / 16), Nat.digitChar (c.toNat % 16)]
    else [c]

/-- A string in quotes. Text that is no string is written as an empty one. -/
def quoted (text : Option String) : List Char :=
  '"' :: ((text.getD "").toList.flatMap escaped ++ ['"'])

mutual

/-- A value on one line. -/
def compact : Json → List Char
  | null => ['n', 'u', 'l', 'l']
  | bool true => ['t', 'r', 'u', 'e']
  | bool false => ['f', 'a', 'l', 's', 'e']
  | number numeral => numeral.text
  | string text => quoted text
  | array list => '[' :: (compactItems list ++ [']'])
  | object list => '\x7b' :: (compactMembers list ++ ['\x7d'])

/-- Items with commas between them. -/
def compactItems : List Json → List Char
  | [] => []
  | [item] => compact item
  | item :: rest => compact item ++ ',' :: compactItems rest

/-- Members with commas between them. -/
def compactMembers : List (Option String × Json) → List Char
  | [] => []
  | [(key, value)] => quoted key ++ ':' :: compact value
  | (key, value) :: rest => quoted key ++ ':' :: (compact value ++ ',' :: compactMembers rest)

end

/-- A new line, indented by `level`. -/
def newLine (level : Nat) : List Char := '\n' :: List.replicate (2 * level) ' '

mutual

/-- A value over several lines, inside brackets of depth `level`. -/
def indented (level : Nat) : Json → List Char
  | array (item :: rest) =>
    '[' :: (indentedItems (level + 1) (item :: rest) ++ newLine level ++ [']'])
  | object (member :: rest) =>
    '\x7b' :: (indentedMembers (level + 1) (member :: rest) ++ newLine level ++ ['\x7d'])
  | other => compact other

/-- Items on lines of their own. -/
def indentedItems (level : Nat) : List Json → List Char
  | [] => []
  | [item] => newLine level ++ indented level item
  | item :: rest => newLine level ++ indented level item ++ ',' :: indentedItems level rest

/-- Members on lines of their own. -/
def indentedMembers (level : Nat) : List (Option String × Json) → List Char
  | [] => []
  | [(key, value)] => newLine level ++ quoted key ++ ':' :: ' ' :: indented level value
  | (key, value) :: rest =>
    newLine level ++ quoted key ++
      ':' :: ' ' :: (indented level value ++ ',' :: indentedMembers level rest)

end

/-- A value over several lines. -/
def pretty (j : Json) : String := String.ofList (indented 0 j)

end Json
end GateCircuit
