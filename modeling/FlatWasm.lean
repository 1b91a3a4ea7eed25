import FlatWasm.Binary.Decode
import FlatWasm.Binary.Encode
import FlatWasm.Binary.Fault
import FlatWasm.Bits
import FlatWasm.ByteOrder
import FlatWasm.CommandLine.Flag
import FlatWasm.CommandLine.Task
import FlatWasm.Compilation
import FlatWasm.Config
import FlatWasm.ConstExpr
import FlatWasm.Defect
import FlatWasm.ErrorClass
import FlatWasm.Event
import FlatWasm.Flat.Code
import FlatWasm.Flat.Instr
import FlatWasm.Flat.Listing
import FlatWasm.Function
import FlatWasm.IndexSpace
import FlatWasm.Instr
import FlatWasm.Instr.Read
import FlatWasm.Leb128
import FlatWasm.Linking.Imports
import FlatWasm.Linking.Instance
import FlatWasm.Linking.Instantiate
import FlatWasm.Linking.Load
import FlatWasm.Linking.Pool
import FlatWasm.Locals
import FlatWasm.Location
import FlatWasm.Lowering.Run
import FlatWasm.Lowering.Selection
import FlatWasm.Lowering.State
import FlatWasm.Lowering.Step
import FlatWasm.Main
import FlatWasm.Module
import FlatWasm.Module.Check
import FlatWasm.Opcode
import FlatWasm.Operator
import FlatWasm.Proofs.Binary.ConstExprs
import FlatWasm.Proofs.Binary.Grammar
import FlatWasm.Proofs.Binary.Items
import FlatWasm.Proofs.Binary.NormalForm
import FlatWasm.Proofs.Binary.RoundTrip
import FlatWasm.Proofs.Binary.Sections
import FlatWasm.Proofs.Compilation.Defects
import FlatWasm.Proofs.Compilation.Offences
import FlatWasm.Proofs.Compilation.Stages
import FlatWasm.Proofs.Failures
import FlatWasm.Proofs.Flat.Fetch
import FlatWasm.Proofs.Flat.Inverse
import FlatWasm.Proofs.Flat.Lines
import FlatWasm.Proofs.Flat.Paths
import FlatWasm.Proofs.Flow.Body
import FlatWasm.Proofs.Flow.Discipline
import FlatWasm.Proofs.Flow.Frames
import FlatWasm.Proofs.Flow.Invariant
import FlatWasm.Proofs.Flow.Layout
import FlatWasm.Proofs.Flow.Lowered
import FlatWasm.Proofs.Flow.Returns
import FlatWasm.Proofs.Flow.Selected
import FlatWasm.Proofs.Flow.Sites
import FlatWasm.Proofs.Flow.Targets
import FlatWasm.Proofs.Flow.Ways
import FlatWasm.Proofs.IndexSpace.Calls
import FlatWasm.Proofs.IndexSpace.Layout
import FlatWasm.Proofs.Leb128Forms
import FlatWasm.Proofs.Leb128Grammar
import FlatWasm.Proofs.Leb128Shortest
import FlatWasm.Proofs.Leb128Sources
import FlatWasm.Proofs.Leb128Values
import FlatWasm.Proofs.Linking.Allocation
import FlatWasm.Proofs.Linking.Evolution
import FlatWasm.Proofs.Linking.InitialValues
import FlatWasm.Proofs.Linking.Initializers
import FlatWasm.Proofs.Linking.Instantiation
import FlatWasm.Proofs.Linking.Interruption
import FlatWasm.Proofs.Linking.Limits
import FlatWasm.Proofs.Linking.Loading
import FlatWasm.Proofs.Linking.Locations
import FlatWasm.Proofs.Linking.Order
import FlatWasm.Proofs.Linking.Programs
import FlatWasm.Proofs.Linking.Refusals
import FlatWasm.Proofs.Linking.Resolution
import FlatWasm.Proofs.Linking.Stepwise
import FlatWasm.Proofs.LittleEndian
import FlatWasm.Proofs.Lowering.Completion
import FlatWasm.Proofs.Lowering.DeadCode
import FlatWasm.Proofs.Lowering.Drops
import FlatWasm.Proofs.Lowering.Emitted
import FlatWasm.Proofs.Lowering.Patches
import FlatWasm.Proofs.Lowering.Pending
import FlatWasm.Proofs.Lowering.Retarget
import FlatWasm.Proofs.Lowering.Steps
import FlatWasm.Proofs.Machine.Refinement
import FlatWasm.Proofs.Machine.Simulation
import FlatWasm.Proofs.Machine.Source
import FlatWasm.Proofs.Machine.Target
import FlatWasm.Proofs.Readers
import FlatWasm.Proofs.Source.Pass
import FlatWasm.Proofs.Source.Reading
import FlatWasm.Proofs.Source.Syntax
import FlatWasm.Proofs.Source.Tokens
import FlatWasm.Proofs.Store.Accesses
import FlatWasm.Proofs.Store.Bounds
import FlatWasm.Proofs.Store.Entries
import FlatWasm.Proofs.Store.Growth
import FlatWasm.Proofs.Store.History
import FlatWasm.Proofs.Store.References
import FlatWasm.Proofs.Store.Writing
import FlatWasm.Proofs.TypeSystem.Completeness
import FlatWasm.Proofs.TypeSystem.KnownTypes
import FlatWasm.Proofs.TypeSystem.Operators
import FlatWasm.Proofs.TypeSystem.Rules
import FlatWasm.Proofs.TypeSystem.Soundness
import FlatWasm.Proofs.TypeSystem.Stacks
import FlatWasm.Proofs.TypeSystem.Validated
import FlatWasm.Proofs.Typing.Frames
import FlatWasm.Proofs.Typing.Heights
import FlatWasm.Proofs.Typing.Nesting
import FlatWasm.Reader
import FlatWasm.Store.Global
import FlatWasm.Store.Linear
import FlatWasm.Store.Memory
import FlatWasm.Store.Segment
import FlatWasm.Store.Sparse
import FlatWasm.Store.Table
import FlatWasm.Text.Escaped
import FlatWasm.Text.FixedPoint
import FlatWasm.Text.Hex
import FlatWasm.Text.Printable
import FlatWasm.Text.Quoted
import FlatWasm.Typing.Frame
import FlatWasm.Typing.Step
import FlatWasm.Validation
import FlatWasm.ValueType
