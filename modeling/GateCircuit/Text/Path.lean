/-
# File names

The extension of a path is what follows the last dot of its last component, if something stands in
front of the dot. Empty components and single dots do not count.

Key definition: `fileExtension`.
-/
import GateCircuit.Text.Lowercase

namespace GateCircuit

/-- The parts of a text between separators. -/
def splitAt (separator : Char) : List Char → List (List Char)
  | [] => [[]]
  | c :: cs =>
    if c = separator then [] :: splitAt separator cs
    else
      match splitAt separator cs with
      | [] => [[c]]
      | part :: parts => (c :: part) :: parts

/-- The last component of a path; none if the path ends at a directory above. -/
def fileName? (path : String) : Option (List Char) :=
  let parts := (splitAt '/' path.toList).filter fun part => !part.isEmpty && part != ['.']
  parts.getLast?.filter (· ≠ ['.', '.'])

/-- The extension of a path in small letters; empty if there is none. -/
def fileExtension (path : String) : String :=
  let reversed := ((fileName? path).getD []).reverse
  let extension := reversed.takeWhile (· ≠ '.')
  if reversed.length ≤ extension.length + 1 then ""
  else String.ofList (lowered extension.reverse)

end GateCircuit
