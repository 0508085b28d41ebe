/-
# Hamiltonians as documents

A Hamiltonian is written as a record of its qubit count and its terms, a term as a record of its
qubits, its operators and its weight, and a weight as the list of its two parts, in a format of
doubles. Keys of no field are skipped when reading.

Key definitions: `Hamiltonian.toJson`, `Hamiltonian.ofJson?`, `Hamiltonian.parse`.
-/
import GateCircuit.Document.Node
import GateCircuit.Hamiltonian.Basic
import GateCircuit.Json.Reader
import GateCircuit.Json.Writer

namespace GateCircuit

/-- A complex number as the list of its parts. -/
def Amplitude.toJson (a : Amplitude Float) (format : DoubleFormat := .nearest) : Json :=
  .array [format.write a.re, format.write a.im]

/-- Reads a complex number from the list of its parts. -/
def Amplitude.ofJson? (j : Json) (format : DoubleFormat := .nearest) : Option (Amplitude Float) :=
  match j with
  | .array [re, im] => do some ⟨← format.double? re, ← format.double? im⟩
  | _ => none

/-- An operator as its upper-case letter. -/
def Pauli.toJson (p : Pauli) : Json := .ofText (String.singleton p.letter)

/-- Reads an operator from its upper-case letter, which may also be the only key of an object with
nothing in it. -/
def Pauli.ofJson? (j : Json) : Option Pauli :=
  let ofText (text : String) : Option Pauli :=
    [Pauli.I, .X, .Y, .Z].find? fun p => text = String.singleton p.letter
  match j with
  | .string (some text) => ofText text
  | .object [(some text, .null)] => ofText text
  | _ => none

namespace PauliTerm

/-- The fields of a term. -/
def fieldNames : List String := ["index_list", "pauli_id_list", "coef"]

/-- A term as a record. -/
def toJson (t : PauliTerm Float) (format : DoubleFormat := .nearest) : Json :=
  .ofFields (fieldNames.zip
    [.array (t.qubits.map Json.ofNat), .array (t.paulis.map Pauli.toJson), t.coef.toJson format])

/-- Reads a term. -/
def ofJson? (j : Json) (format : DoubleFormat := .nearest) : Option (PauliTerm Float) := do
  match ← readRecord fieldNames true j with
  | [some qubits, some paulis, some coef] =>
    some {
      qubits := ← (← DataNode.items? qubits).mapM DataNode.count?
      paulis := ← (← DataNode.items? paulis).mapM Pauli.ofJson?
      coef := ← Amplitude.ofJson? coef format }
  | _ => none

end PauliTerm

namespace Hamiltonian

/-- The fields of a Hamiltonian. -/
def fieldNames : List String := ["qubit_count", "terms"]

/-- A Hamiltonian as a record. -/
def toJson (h : Hamiltonian Float) (format : DoubleFormat := .nearest) : Json :=
  .ofFields (fieldNames.zip
    [.ofNat h.qubitCount, .array (h.terms.map fun t => t.toJson format)])

/-- Reads a Hamiltonian. -/
def ofJson? (j : Json) (format : DoubleFormat := .nearest) : Option (Hamiltonian Float) := do
  match ← readRecord fieldNames true j with
  | [some qubitCount, some terms] =>
    some {
      qubitCount := ← DataNode.count? qubitCount
      terms := ← (← DataNode.items? terms).mapM fun term => PauliTerm.ofJson? term format }
  | _ => none

/-- A Hamiltonian as text. -/
def render (h : Hamiltonian Float) (format : DoubleFormat := .nearest) : String :=
  String.ofList (h.toJson format).compact

/-- Reads a Hamiltonian from text. -/
def parse (text : String) (format : DoubleFormat := .nearest) : Option (Hamiltonian Float) := do
  ofJson? (← Json.parse text) format

end Hamiltonian
end GateCircuit
