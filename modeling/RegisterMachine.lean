import RegisterMachine.Assembly.Assembler
import RegisterMachine.Assembly.AssemblyError
import RegisterMachine.Assembly.Diagnostic
import RegisterMachine.Assembly.Emission
import RegisterMachine.Assembly.Layout
import RegisterMachine.Assembly.Literal
import RegisterMachine.Assembly.Token
import RegisterMachine.Instruction.Condition
import RegisterMachine.Instruction.Name
import RegisterMachine.Instruction.Operand
import RegisterMachine.Instruction.OperandError
import RegisterMachine.Instruction.Table
import RegisterMachine.Instruction.Word
import RegisterMachine.Machine.Arithmetic
import RegisterMachine.Machine.Basic
import RegisterMachine.Machine.Config
import RegisterMachine.Machine.Console
import RegisterMachine.Machine.Context
import RegisterMachine.Machine.ContextTable
import RegisterMachine.Machine.Control
import RegisterMachine.Machine.Device
import RegisterMachine.Machine.Effect
import RegisterMachine.Machine.Generator
import RegisterMachine.Machine.Interrupt
import RegisterMachine.Machine.Load
import RegisterMachine.Machine.Step
import RegisterMachine.Main
import RegisterMachine.Memory.Allocator
import RegisterMachine.Memory.Basic
import RegisterMachine.Memory.Pointer
import RegisterMachine.Number.Decimal
import RegisterMachine.Number.LittleEndian
import RegisterMachine.Number.Numeral
import RegisterMachine.Program.Basic
import RegisterMachine.Program.Image
import RegisterMachine.Program.LabelTable
import RegisterMachine.Proofs.Assembly.LabelOperand
import RegisterMachine.Proofs.Assembly.Placement
import RegisterMachine.Proofs.Assembly.Relocation
import RegisterMachine.Proofs.Assembly.Tiling
import RegisterMachine.Proofs.Except
import RegisterMachine.Proofs.Instruction.Decoding
import RegisterMachine.Proofs.Instruction.RoundTrip
import RegisterMachine.Proofs.Machine.LabelUse
import RegisterMachine.Proofs.Machine.PreciseFault
import RegisterMachine.Proofs.Machine.Reachable
import RegisterMachine.Proofs.Machine.Step
import RegisterMachine.Proofs.Memory.AllocatorHistory
import RegisterMachine.Proofs.Memory.Blocks
import RegisterMachine.Proofs.Number.LittleEndian
import RegisterMachine.Report.Event
import RegisterMachine.Report.Level
import RegisterMachine.Text.Blank
import RegisterMachine.Text.Hex
import RegisterMachine.Text.Lines
import RegisterMachine.Text.Utf8
import RegisterMachine.Tool.AssembleCommand
import RegisterMachine.Tool.Desk
import RegisterMachine.Tool.Folder
import RegisterMachine.Tool.Path
import RegisterMachine.Tool.ProgramFile
import RegisterMachine.Tool.RunCommand
import RegisterMachine.Tool.Script
import RegisterMachine.Tool.Usage
import RegisterMachine.Proofs.Instruction.Canonical
import RegisterMachine.Proofs.Program.ImageCodec
import RegisterMachine.Proofs.Assembly.Printing
import RegisterMachine.Proofs.Assembly.Scanning
import RegisterMachine.Proofs.Instruction.Names
import RegisterMachine.Proofs.Assembly.Disassembly
import RegisterMachine.Proofs.Machine.ContextTable
import RegisterMachine.Proofs.Machine.SharedControl
import RegisterMachine.Proofs.Machine.Evolution
import RegisterMachine.Proofs.Machine.Invariant
import RegisterMachine.Proofs.Memory.Contents
import RegisterMachine.Proofs.Machine.Loading
import RegisterMachine.Proofs.Assembly.ReadBack
import RegisterMachine.Proofs.Machine.Isolation
import RegisterMachine.Proofs.Machine.FaultHandlers
import RegisterMachine.Proofs.Tool.SourceAndImage
import RegisterMachine.Proofs.Machine.Alteration
import RegisterMachine.Proofs.Machine.Clock
import RegisterMachine.Proofs.Machine.DeviceTable
import RegisterMachine.Proofs.Machine.Footprint
import RegisterMachine.Proofs.Machine.HiddenMemory
import RegisterMachine.Proofs.Machine.Planning
import RegisterMachine.Proofs.Machine.Stopped
import RegisterMachine.Proofs.Assembly.Rendering
import RegisterMachine.Proofs.Machine.FatalError
import RegisterMachine.Proofs.Assembly.Displacement
import RegisterMachine.Proofs.Text.LetterCase
import RegisterMachine.Proofs.Assembly.LowerCase
import RegisterMachine.Proofs.Assembly.Recased
import RegisterMachine.Proofs.Text.Lines
import RegisterMachine.Proofs.Assembly.Excerpt
import RegisterMachine.Proofs.Assembly.ErrorPlace
import RegisterMachine.Proofs.Memory.BestFit
import RegisterMachine.Proofs.Memory.FailedCall
import RegisterMachine.Proofs.Machine.Allocation
import RegisterMachine.Proofs.Machine.CallStack
import RegisterMachine.Proofs.Machine.Alignment
import RegisterMachine.Proofs.Assembly.Outline
import RegisterMachine.Proofs.Assembly.DataHead
import RegisterMachine.Proofs.Machine.LoadWord
import RegisterMachine.Proofs.Assembly.Definitions
import RegisterMachine.Proofs.Assembly.IntegerLiteral
import RegisterMachine.Proofs.Assembly.OperandToken
import RegisterMachine.Proofs.Memory.Access
import RegisterMachine.Proofs.Machine.BlockCopy
import RegisterMachine.Proofs.Program.DamagedImage
import RegisterMachine.Proofs.Program.LabelLookup
import RegisterMachine.Proofs.Machine.AfterFailure
import RegisterMachine.Proofs.Machine.NestedDelivery
import RegisterMachine.Proofs.Machine.GeneratorPeriod
import RegisterMachine.Proofs.Machine.DrawnBytes
import RegisterMachine.Proofs.Memory.PointerCalls
import RegisterMachine.Proofs.Machine.Division
import RegisterMachine.Proofs.Machine.InternalErrors
import RegisterMachine.Proofs.Machine.IntegerDivision
