/-
# Records in data formats

Data formats differ in how they write numbers and text, and agree on lists and on members with
keys. What a document means is stated once, over any format that answers the questions of
`DataNode`. A record is written with its fields as members in any order, or, where the format allows
it, as the list of its fields in the declared order; fields at the end of a list may be missing.

Key definitions: `DataNode`, `collect`, `readRecord`.
-/
import GateCircuit.Json.DoubleFormat

namespace GateCircuit

/-- A node of a document: what it can be read as. -/
class DataNode (τ : Type) where
  /-- an integer between zero and `maxCount` -/
  count? : τ → Option Nat
  /-- a finite number, or what else the format counts as a number -/
  number? : τ → Option Float
  text? : τ → Option String
  items? : τ → Option (List τ)
  /-- the fields of a record that is written as a list -/
  fields? : τ → Option (List τ)
  /-- members with their keys, as far as the keys are text -/
  members? : τ → Option (List (Option String × τ))

/-- The values of the fields `names` among `members`. A field may be missing but not repeated, every
key must be text, and keys of no field are refused unless `lenient`. -/
def collect {τ : Type} (names : List String) (lenient : Bool)
    (members : List (Option String × τ)) : Option (List (Option τ)) :=
  let known := members.all fun (key, _) => key.any fun k => lenient || names.contains k
  let valuesOf (name : String) : List τ :=
    members.filterMap fun (key, value) => if key = some name then some value else none
  if known && names.all fun name => (valuesOf name).length ≤ 1 then
    some (names.map fun name => (valuesOf name).head?)
  else none

/-- The fields of a record, in the order of `names`. -/
def readRecord {τ : Type} [DataNode τ] (names : List String) (lenient : Bool) (node : τ) :
    Option (List (Option τ)) :=
  match DataNode.fields? node with
  | some list =>
    if list.length ≤ names.length then
      some (list.map some ++ List.replicate (names.length - list.length) none)
    else none
  | none => (DataNode.members? node).bind (collect names lenient)

/-- The items of an array. -/
def Json.items? : Json → Option (List Json)
  | array list => some list
  | _ => none

instance : DataNode Json where
  count?
    | .number numeral => numeral.natural?.filter (· ≤ maxCount)
    | _ => none
  number? := DoubleFormat.inSteps.double?
  text?
    | .string text => text
    | _ => none
  items? := Json.items?
  fields? := Json.items?
  members?
    | .object list => some list
    | _ => none

end GateCircuit
