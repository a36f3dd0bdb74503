import ManagedVm.Address
import ManagedVm.Arena
import ManagedVm.Assembler.Basic
import ManagedVm.Assembler.Routine
import ManagedVm.CommandLine
import ManagedVm.Demo
import ManagedVm.Error
import ManagedVm.Floating.Arithmetic
import ManagedVm.Floating.Decimal
import ManagedVm.Floating.Format
import ManagedVm.Heap.Basic
import ManagedVm.Heap.Operations
import ManagedVm.Image
import ManagedVm.Instruction.Basic
import ManagedVm.Instruction.Codec
import ManagedVm.Instruction.Opcode
import ManagedVm.Journal
import ManagedVm.LittleEndian
import ManagedVm.Machine.Allocation
import ManagedVm.Machine.Host
import ManagedVm.Machine.Invoke
import ManagedVm.Machine.Members
import ManagedVm.Machine.Memory
import ManagedVm.Machine.NativeCall
import ManagedVm.Machine.References
import ManagedVm.Machine.Release
import ManagedVm.Machine.Sizing
import ManagedVm.Machine.State
import ManagedVm.Machine.Step
import ManagedVm.Main
import ManagedVm.Natives
import ManagedVm.Scalar.Arithmetic
import ManagedVm.Scalar.Basic
import ManagedVm.Scalar.Kind
import ManagedVm.Scalar.Text
import ManagedVm.Stack.Frame
import ManagedVm.Stack.FrameStack
import ManagedVm.Types.Descriptor
import ManagedVm.Types.Table
import ManagedVm.Utf8
import ManagedVm.Value
import ManagedVm.Proofs.Heap.Regions
import ManagedVm.Proofs.Heap.Invariant
import ManagedVm.Proofs.Types.Sizes
import ManagedVm.Proofs.Types.Layout
import ManagedVm.Proofs.Types.Builtins
import ManagedVm.Proofs.Types.Nesting
import ManagedVm.Proofs.Types.Acceptance
import ManagedVm.Proofs.Types.Packing
import ManagedVm.Proofs.Heap.Lookup
import ManagedVm.Proofs.Machine.References
import ManagedVm.Proofs.Machine.Exec
import ManagedVm.Proofs.Machine.Release
import ManagedVm.Proofs.Arena
import ManagedVm.Proofs.Stack.Frames
import ManagedVm.Proofs.Stack.Invariant
import ManagedVm.Proofs.Stack.Scratch
import ManagedVm.Proofs.Heap.Canonical
import ManagedVm.Proofs.Machine.ReleaseOrder
import ManagedVm.Proofs.Machine.Queries
import ManagedVm.Proofs.Machine.Keeps
import ManagedVm.Proofs.Machine.Touches
import ManagedVm.Proofs.Machine.Effect
import ManagedVm.Proofs.Machine.Sizing
import ManagedVm.Proofs.Machine.Instructions
import ManagedVm.Proofs.Machine.Body
import ManagedVm.Proofs.Machine.Invocation
import ManagedVm.Proofs.Machine.Depth
import ManagedVm.Proofs.Heap.Placement
import ManagedVm.Proofs.Heap.Store
import ManagedVm.Proofs.Machine.Shape
import ManagedVm.Proofs.Machine.Nesting
import ManagedVm.Proofs.Machine.Balance
import ManagedVm.Proofs.Machine.Leaves
import ManagedVm.Proofs.Machine.Host
import ManagedVm.Proofs.Machine.Storing
import ManagedVm.Proofs.Machine.Elements
import ManagedVm.Proofs.Machine.Sweep
import ManagedVm.Proofs.Machine.Cells
import ManagedVm.Proofs.Machine.FrameContents
import ManagedVm.Proofs.Machine.FrameSteps
import ManagedVm.Proofs.Machine.CellSteps
import ManagedVm.Proofs.Machine.Refinement
import ManagedVm.Proofs.Heap.History
import ManagedVm.Proofs.Growth
import ManagedVm.Proofs.Machine.Termination
import ManagedVm.Proofs.Machine.Faults
import ManagedVm.Proofs.Instruction.Codec
import ManagedVm.Proofs.Scalar.Words
import ManagedVm.Proofs.Scalar.Saturation
import ManagedVm.Proofs.Machine.Budget
import ManagedVm.Proofs.Machine.Pacing
import ManagedVm.Proofs.Machine.StraightLine
import ManagedVm.Proofs.Heap.Interior
import ManagedVm.Proofs.Utf8
import ManagedVm.Proofs.Machine.Strings
import ManagedVm.Proofs.Machine.Sheet
import ManagedVm.Proofs.Machine.SheetSteps
import ManagedVm.Proofs.Machine.SheetRuns
import ManagedVm.Proofs.Machine.HostProgram
import ManagedVm.Proofs.Scalar.Numbers
import ManagedVm.Proofs.Demo.CountingLoop
import ManagedVm.Proofs.Demo.FillArray
import ManagedVm.Proofs.Assembler.Labels
import ManagedVm.Proofs.Assembler.Constants
import ManagedVm.Proofs.Assembler.DerivedTypes
import ManagedVm.Proofs.Machine.BuiltinScalars
import ManagedVm.Proofs.Natives
import ManagedVm.Proofs.Machine.Scans
