/-
# The command `lower`

The command reads a description of a Hamiltonian, lowers it to a circuit, and reports the circuit's
size; on request it runs the circuit and reports the most likely outcomes. All of it is a function
of the options and of what the input file holds.

Key definitions: `FileContent`, `LowerError`, `LowerReport`, `LowerOptions.run`.
-/
import GateCircuit.Circuit.Run
import GateCircuit.Circuit.Summary
import GateCircuit.Command.Arguments
import GateCircuit.Document.Config
import GateCircuit.Document.Yaml
import GateCircuit.Json.Reader
import GateCircuit.Lowering
import GateCircuit.StateVector.Kernels
import GateCircuit.StateVector.Outcomes
import GateCircuit.Text.Path

namespace GateCircuit

/-- What stands at a path. -/
inductive FileContent where
  | missing
  /-- something that is no readable text file -/
  | unreadable
  | text (content : String)
  deriving DecidableEq, Repr

/-- Why the command fails. -/
inductive LowerError where
  | infiniteAngle (angle : Float)
  | fileNotFound (path : String)
  | unreadableFile (path : String)
  | unsupportedExtension (extension : String)
  | invalidYaml (path : String)
  | invalidJson (path : String)
  | invalidTerm (error : TermTextError)
  | tooWideToSimulate (qubitCount : Nat)
  | invalidWidth (error : CircuitError Float)
  | diagonalLowering (error : CircuitError Float)
  | stepLowering (error : CircuitError Float)
  | allocation (error : CircuitError Float)
  | simulation (error : CircuitError Float)

/-- The widest Hamiltonian that is simulated. -/
def maxSimulatedQubits : Nat := 20

/-- The number of outcomes in a report. -/
def reportedOutcomes : Nat := 8

namespace LowerError

/-- The message of an error. -/
def message : LowerError → String
  | infiniteAngle angle => "Angle must be finite, got " ++ Double.text angle
  | fileNotFound path => "File not found: " ++ path
  | unreadableFile path => "Failed to read file: " ++ path
  | unsupportedExtension extension =>
    s!"Unsupported file extension '{extension}', expected yaml, yml or json"
  | invalidYaml path => "Failed to parse YAML: " ++ path
  | invalidJson path => "Failed to parse JSON: " ++ path
  | invalidTerm ⟨position, text, cause⟩ =>
    s!"Invalid Pauli string in term {position}: '{text}': " ++ cause.message
  | tooWideToSimulate qubitCount =>
    s!"Hamiltonian has {qubitCount} qubits but --simulate supports at most {maxSimulatedQubits}"
  | invalidWidth error => "Invalid Hamiltonian width: " ++ error.message
  | diagonalLowering error => "Diagonal lowering failed: " ++ error.message
  | stepLowering error => "Trotter lowering failed: " ++ error.message
  | allocation error => "Failed to allocate state: " ++ error.message
  | simulation error => "Simulation failed: " ++ error.message

end LowerError

/-- How a Hamiltonian was lowered. -/
inductive Policy where
  /-- one rotation per term -/
  | diagonal
  /-- equal steps -/
  | steps (repeats : Nat)
  deriving DecidableEq, Repr

/-- What the command found out. -/
structure LowerReport where
  termCount : Nat
  policy : Policy
  summary : CircuitSummary
  outcomes : Option (List (Outcome Float))
  deriving Repr

/-- An error under the heading of the step that it stopped. -/
def attempt {α : Type} (heading : CircuitError Float → LowerError)
    (result : Except (CircuitError Float) α) : Except LowerError α :=
  result.mapError heading

/-- Reads the description that a file holds; its format goes by the extension of the path. -/
def readConfig (path content : String) : Except LowerError HamiltonianConfig :=
  match fileExtension path with
  | "yaml" | "yml" =>
    ((Yaml.parse content).bind HamiltonianConfig.ofNode?).elim (.error (.invalidYaml path)) .ok
  | "json" =>
    ((Json.parse content).bind HamiltonianConfig.ofNode?).elim (.error (.invalidJson path)) .ok
  | extension => .error (.unsupportedExtension extension)

/-- The Hamiltonian that a file describes. -/
def loadHamiltonian (path : String) (file : FileContent) :
    Except LowerError (Hamiltonian Float) :=
  match file with
  | .missing => .error (.fileNotFound path)
  | .unreadable => .error (.unreadableFile path)
  | .text content => do
    let config ← readConfig path content
    config.hamiltonian.mapError .invalidTerm

/-- Lowers a Hamiltonian to a circuit of its own width. -/
def lowerAlone (h : Hamiltonian Float) (angle : Float) (diagonal : Bool) (repeats : Nat) :
    Except LowerError (Policy × Circuit (Gate Float)) := do
  let start ← attempt .invalidWidth (Circuit.new h.qubitCount)
  if diagonal then
    let c ← attempt .diagonalLowering (start.lowerDiagonal h angle)
    pure (.diagonal, c)
  else
    let count := chosenRepeats angle h.qubitCount repeats
    let c ← attempt .stepLowering (start.lower h angle count)
    pure (.steps count, c)

/-- Runs a circuit from the state in which all qubits are unset. -/
def finalState (c : Circuit (Gate Float)) : Except LowerError (StateVector Float) := do
  let start : StateVector Float ← attempt .allocation (StateVector.zeroState c.qubitCount)
  match c.run start with
  | .ok _ after => pure after
  | .error e _ => throw (.simulation e)

/-- Lowers a Hamiltonian as the options say, and reports. -/
def LowerOptions.report (o : LowerOptions) (h : Hamiltonian Float) :
    Except LowerError LowerReport := do
  if o.simulate && maxSimulatedQubits < h.qubitCount then
    throw (.tooWideToSimulate h.qubitCount)
  let (policy, c) ← lowerAlone h o.angle o.diagonal o.repeats
  let outcomes ←
    if o.simulate then (finalState c).map fun s => some (topOutcomes s reportedOutcomes)
    else pure none
  pure { termCount := h.terms.length, policy, summary := c.summary, outcomes }

/-- Carries the command out on what stands at its input path. -/
def LowerOptions.run (o : LowerOptions) (file : FileContent) : Except LowerError LowerReport := do
  if !o.angle.isFinite then throw (.infiniteAngle o.angle)
  let h ← loadHamiltonian o.input file
  o.report h

end GateCircuit
