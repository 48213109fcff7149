import StackMips.Compile
import StackMips.Diagnostic.Excerpt
import StackMips.Proofs.Resolution.Linking
import StackMips.Proofs.Resolution.Soundness
import StackMips.Proofs.Run
import StackMips.Proofs.Tree
import StackMips.Tree.Occurrence
import StackMips.Proofs.Resolution.Total
import StackMips.Proofs.Resolution.Program
import StackMips.Proofs.Resolution.Quiet
import StackMips.Proofs.Resolution.Links
import StackMips.Proofs.Resolution.Frame
import StackMips.Proofs.Resolution.Scoping
import StackMips.Proofs.Resolution.StaticScope
import StackMips.Proofs.Resolution.Layout
import StackMips.Proofs.Resolution.SymbolArena
import StackMips.Proofs.Resolution.Accounting
import StackMips.Proofs.Resolution.Declared
import StackMips.Proofs.Resolution.TopLevel
import StackMips.Proofs.Typing
import StackMips.Proofs.Analysis
import StackMips.Proofs.TypeChecking
import StackMips.Proofs.ErrorTypes
import StackMips.Proofs.Lowering.Blocked
import StackMips.Proofs.Lowering.Script
import StackMips.Proofs.Lowering.Performs
import StackMips.Proofs.Lowering.Expr
import StackMips.Proofs.Lowering.Stmt
import StackMips.Proofs.Lowering.Program
import StackMips.Proofs.Outcome
import StackMips.Proofs.Lowering.Accepted
import StackMips.Proofs.Lowering.Pool
import StackMips.Proofs.Lowering.Structured
import StackMips.Proofs.Lowering.Displacement
import StackMips.Proofs.Lowering.Labels
import StackMips.Proofs.Lowering.Ranges
import StackMips.Proofs.Machine
import StackMips.Proofs.Simulation.Run
import StackMips.Proofs.Semantics
import StackMips.Proofs.Simulation.Setting
import StackMips.Proofs.Simulation.Expr
import StackMips.Proofs.Simulation.Control
import StackMips.Proofs.Simulation.Stmt
import StackMips.Proofs.Simulation.Frame
import StackMips.Proofs.Simulation.Separation
import StackMips.Proofs.Simulation.Block
import StackMips.Proofs.CallingConvention
import StackMips.Proofs.LabelClosure
import StackMips.Proofs.StackDiscipline
import StackMips.Proofs.TypeRecovery
import StackMips.Proofs.EntryLabels
import StackMips.Proofs.StringPooling
import StackMips.Proofs.Lowering.Literals
import StackMips.Proofs.Resolution.VariableTypes
import StackMips.Proofs.Booleans.Run
import StackMips.Proofs.Booleans.Code
import StackMips.Proofs.Booleans.Frame
import StackMips.Proofs.Booleans.Layout
import StackMips.Proofs.Booleans.Expr
import StackMips.Proofs.Booleans.Stmt
import StackMips.Proofs.Booleans.Function
import StackMips.Proofs.CanonicalBooleans
import StackMips.Proofs.Tree.Identifiers
import StackMips.Proofs.Lowering.Pairing
import StackMips.Proofs.Lowering.PairedTrees
import StackMips.Proofs.InertComments
import StackMips.Proofs.Sections
import StackMips.Proofs.Resolution.Passes
import StackMips.Proofs.RejectedDeclarations
import StackMips.Proofs.Renaming
import StackMips.Proofs.OperandPeak
import StackMips.Proofs.ArgumentTypes
import StackMips.Proofs.StructInsertion
import StackMips.Proofs.ExpressionCode
import StackMips.Proofs.FieldChains
import StackMips.Proofs.Resolution.ReportOrder
import StackMips.Proofs.TableHistory
import StackMips.Proofs.Simulation.Straight
import StackMips.Proofs.StepStatements
import StackMips.Proofs.TypeAgreement
import StackMips.Proofs.Excerpt
import StackMips.Proofs.Tree.Bare
import StackMips.Proofs.Reading.Reader
import StackMips.Proofs.Reading.Expr
import StackMips.Proofs.Reading.Stmt
import StackMips.Proofs.UniqueReading
