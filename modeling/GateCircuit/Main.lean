/-
# The program

Reads the input file that the arguments name, prints the answer, and ends with exit code 0 after an
answer, 1 after a failure, and 2 if the arguments make no request.

Key definition: `main`.
-/
import GateCircuit.Command.Reply
import GateCircuit.Json.Writer

namespace GateCircuit

/-- What stands at a path. -/
def readPath (path : String) : IO FileContent := do
  try
    let content ← IO.FS.readFile path
    pure (.text content)
  catch
    | .noFileOrDirectory .. => pure .missing
    | _ => pure .unreadable

/-- Prints an answer; the exit code. -/
def printReply : Reply → IO UInt32
  | .text content => do
    IO.print content
    pure 0
  | .document content => do
    IO.println content.pretty
    pure 0
  | .failure message => do
    IO.eprintln ("Error: " ++ message)
    pure 1
  | .usage => do
    IO.eprint ("error: invalid arguments\n\n" ++ helpText)
    pure 2

/-- Answers command-line arguments. -/
def runProgram (arguments : List String) : IO UInt32 := do
  match Request.ofArguments? arguments with
  | none => printReply .usage
  | some (.lower o) => do
    let file ← if o.angle.isFinite then readPath o.input else pure .missing
    printReply (o.reply file)
  | some request => printReply (request.reply fun _ => .missing)

end GateCircuit

/-- The entry point. -/
def main (arguments : List String) : IO UInt32 := GateCircuit.runProgram arguments
