import GateCircuit.Amplitude
import GateCircuit.Circuit.Basic
import GateCircuit.Circuit.Depth
import GateCircuit.Circuit.Edit
import GateCircuit.Circuit.Operation
import GateCircuit.Circuit.Run
import GateCircuit.Circuit.Summary
import GateCircuit.Command.Arguments
import GateCircuit.Command.Lower
import GateCircuit.Command.Reply
import GateCircuit.Decimal.Basic
import GateCircuit.Decimal.Numeral
import GateCircuit.Decimal.Scan
import GateCircuit.Document.Config
import GateCircuit.Document.Gate
import GateCircuit.Document.Hamiltonian
import GateCircuit.Document.Node
import GateCircuit.Document.Yaml
import GateCircuit.Double.Exact
import GateCircuit.Double.Fixed
import GateCircuit.Double.Hypotenuse
import GateCircuit.Double.Reading
import GateCircuit.Double.Shortest
import GateCircuit.Double.Stepwise
import GateCircuit.Error
import GateCircuit.Gate.Basic
import GateCircuit.Gate.Kind
import GateCircuit.Gate.Named
import GateCircuit.Gate.Recipe
import GateCircuit.Hamiltonian.Basic
import GateCircuit.Hamiltonian.Term
import GateCircuit.Json.Basic
import GateCircuit.Json.Reader
import GateCircuit.Json.Token
import GateCircuit.Json.Writer
import GateCircuit.Kernel
import GateCircuit.Lowering
import GateCircuit.Main
import GateCircuit.Pauli
import GateCircuit.Proofs.AppendedGates
import GateCircuit.Proofs.ArityTable
import GateCircuit.Proofs.Bits
import GateCircuit.Proofs.BlockUpdate
import GateCircuit.Proofs.Building
import GateCircuit.Proofs.BuiltCircuits
import GateCircuit.Proofs.CheckedAccess
import GateCircuit.Proofs.CircuitOperator
import GateCircuit.Proofs.Clifford
import GateCircuit.Proofs.CommutingEvolution
import GateCircuit.Proofs.ConstantOffsets
import GateCircuit.Proofs.CriticalPath
import GateCircuit.Proofs.DepthBounds
import GateCircuit.Proofs.DiagonalEvolution
import GateCircuit.Proofs.DiagonalGates
import GateCircuit.Proofs.DiagonalLowering
import GateCircuit.Proofs.DisjointGates
import GateCircuit.Proofs.DoubleBits
import GateCircuit.Proofs.DoubleOrder
import GateCircuit.Proofs.EvolutionTime
import GateCircuit.Proofs.Exact
import GateCircuit.Proofs.FactoryChecks
import GateCircuit.Proofs.GateIdentities
import GateCircuit.Proofs.GateMatrices
import GateCircuit.Proofs.GateOrder
import GateCircuit.Proofs.HamiltonianDocuments
import GateCircuit.Proofs.HamiltonianMatrix
import GateCircuit.Proofs.InPlaceEditing
import GateCircuit.Proofs.InnerProduct
import GateCircuit.Proofs.InverseCircuit
import GateCircuit.Proofs.JsonText
import GateCircuit.Proofs.JsonTokens
import GateCircuit.Proofs.Kernels
import GateCircuit.Proofs.KernelsInPlace
import GateCircuit.Proofs.LowerCommand
import GateCircuit.Proofs.MatrixKernel
import GateCircuit.Proofs.MatrixOperator
import GateCircuit.Proofs.MatrixSizes
import GateCircuit.Proofs.NearestDouble
import GateCircuit.Proofs.Normaliser
import GateCircuit.Proofs.Numerals
import GateCircuit.Proofs.OneQubitSteps
import GateCircuit.Proofs.Operands
import GateCircuit.Proofs.Operations
import GateCircuit.Proofs.Operator
import GateCircuit.Proofs.Outcome
import GateCircuit.Proofs.PauliAlgebra
import GateCircuit.Proofs.PauliConflicts
import GateCircuit.Proofs.PauliKernel
import GateCircuit.Proofs.PauliMatrix
import GateCircuit.Proofs.RangedExecution
import GateCircuit.Proofs.RankedOutcomes
import GateCircuit.Proofs.RealWeights
import GateCircuit.Proofs.RecordDocuments
import GateCircuit.Proofs.Register
import GateCircuit.Proofs.Relabelling
import GateCircuit.Proofs.RepeatBounds
import GateCircuit.Proofs.RepeatCounts
import GateCircuit.Proofs.RotationGroup
import GateCircuit.Proofs.ShortestDecimal
import GateCircuit.Proofs.State
import GateCircuit.Proofs.Support
import GateCircuit.Proofs.Sweep
import GateCircuit.Proofs.TensorEntries
import GateCircuit.Proofs.TermRoutes
import GateCircuit.Proofs.TermText
import GateCircuit.Proofs.TrotterError
import GateCircuit.Proofs.TrotterLowering
import GateCircuit.Proofs.UnitDivision
import GateCircuit.Proofs.UnitScalars
import GateCircuit.Proofs.Unitarity
import GateCircuit.Qubit
import GateCircuit.Scalar
import GateCircuit.StateVector.Basic
import GateCircuit.StateVector.Dense
import GateCircuit.StateVector.Kernels
import GateCircuit.StateVector.Operands
import GateCircuit.StateVector.Outcomes
import GateCircuit.StateVector.PauliString
import GateCircuit.Text.CaseClass
import GateCircuit.Text.Lowercase
import GateCircuit.Text.Path
import GateCircuit.Text.Words
import GateCircuit.Yaml.Cell
import GateCircuit.Yaml.Node
import GateCircuit.Yaml.Scalar
import GateCircuit.Yaml.Token
