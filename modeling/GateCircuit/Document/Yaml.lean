/-
# YAML nodes as documents

A plain scalar can be read as a number, any scalar as text, and a plain scalar with nothing in it as
an empty list; a record is a mapping and never a list. Counts may be written in base sixteen, eight
or two, but in base ten without zeros in front; the infinities and no number have names that begin
with a point.

Key definition: `Yaml.count?`, `Yaml.number?`.
-/
import GateCircuit.Document.Node
import GateCircuit.Yaml.Node

namespace GateCircuit
namespace Yaml

/-- The natural that digits in a base write, if there are any and all are below the base. -/
def basedNatural? (base : Nat) (run : List Char) : Option Nat :=
  if run.isEmpty then none
  else
    run.foldlM (fun n c => ((JsonToken.hexDigit? c).filter (· < base)).map (base * n + ·)) 0

/-- The base that a count is written in, by what it begins with, and its digits. -/
def basedDigits : List Char → Nat × List Char
  | '0' :: 'x' :: rest => (16, rest)
  | '0' :: 'o' :: rest => (8, rest)
  | '0' :: 'b' :: rest => (2, rest)
  | cs => (10, cs)

/-- A natural number as a plain scalar, with a plus sign or without one. -/
def count? (text : String) : Option Nat :=
  let body := if text.toList.head? = some '+' then text.toList.tail else text.toList
  let (base, run) := basedDigits body
  if base = 10 && run.head? = some '0' && run.length ≠ 1 then none else basedNatural? base run

/-- A number as a plain scalar. -/
def number? (text : String) : Option Float :=
  if [".inf", ".Inf", ".INF", "+.inf", "+.Inf", "+.INF"].contains text then
    some (Double.infinity false)
  else if ["-.inf", "-.Inf", "-.INF"].contains text then some (Double.infinity true)
  else if [".nan", ".NaN", ".NAN"].contains text then some Double.nan
  else (Double.read text).filter Float.isFinite

instance : DataNode Node where
  count?
    | .scalar text true => (count? text).filter (· ≤ maxCount)
    | _ => none
  number?
    | .scalar text true => number? text
    | _ => none
  text?
    | .scalar text _ => some text
    | _ => none
  items?
    | .sequence items => some items
    | .scalar "" true => some []
    | _ => none
  fields? _ := none
  members?
    | .mapping entries => some (entries.map fun (key, value) =>
        match key with
        | .scalar text _ => (some text, value)
        | _ => (none, value))
    | _ => none

end Yaml
end GateCircuit
