import ClassImage.Bytes
import ClassImage.Stream
import ClassImage.Search
import ClassImage.Layout
import ClassImage.Text.Numeral
import ClassImage.Text.ModifiedUtf8
import ClassImage.Operation
import ClassImage.Image.Opcode
import ClassImage.Image.Record
import ClassImage.Image.Basic
import ClassImage.Image.Codec
import ClassImage.ClassFile.Fault
import ClassImage.ClassFile.ConstantPool
import ClassImage.ClassFile.Attribute
import ClassImage.ClassFile.Basic
import ClassImage.Bytecode.Form
import ClassImage.Bytecode.Op
import ClassImage.Bytecode.Decode
import ClassImage.Body.Instruction
import ClassImage.Conversion.Error
import ClassImage.Conversion.Settings
import ClassImage.Body.Basic
import ClassImage.Body.NopFree
import ClassImage.Interned
import ClassImage.Image.Pool
import ClassImage.SymbolTable
import ClassImage.Body.Assembly
import ClassImage.Conversion.Event
import ClassImage.Conversion.Workspace
import ClassImage.Conversion.Lowering
import ClassImage.Conversion.Convert
import ClassImage.CommandLine.Arguments
import ClassImage.CommandLine.FileTree
import ClassImage.CommandLine.Run
import ClassImage.Main
import ClassImage.Proofs.Bytes
import ClassImage.Proofs.Stream
import ClassImage.Proofs.Codec
import ClassImage.Proofs.Body
import ClassImage.Proofs.NopFree
import ClassImage.Proofs.NopSimulation
import ClassImage.Proofs.Interned
import ClassImage.Proofs.Layout
import ClassImage.Proofs.Record
import ClassImage.Proofs.Assembly
import ClassImage.Proofs.Meaning
import ClassImage.Proofs.Workspace
import ClassImage.Proofs.Lowering
import ClassImage.Proofs.Conversion
import ClassImage.Proofs.Translation
import ClassImage.Proofs.Referential
import ClassImage.Proofs.Steps
import ClassImage.Proofs.Replay
import ClassImage.Proofs.Session
import ClassImage.Proofs.Prepopulation
import ClassImage.Proofs.ConversionOrder
import ClassImage.Proofs.Excision
import ClassImage.Proofs.LeftOut
import ClassImage.Proofs.ModifiedUtf8
import ClassImage.Proofs.Numbering
import ClassImage.Proofs.Writing
import ClassImage.Proofs.Completeness
import ClassImage.Proofs.ClassFormat
import ClassImage.Proofs.Decoding
import ClassImage.Proofs.Placement
import ClassImage.Proofs.Coverage
import ClassImage.Proofs.Cutting
import ClassImage.Proofs.RecordStream
import ClassImage.Proofs.Disassembly
import ClassImage.Proofs.Regular
import ClassImage.Proofs.Totality
import ClassImage.Proofs.Grammar
import ClassImage.Proofs.DecoderExact
import ClassImage.Proofs.Requests
import ClassImage.Proofs.Lines
import ClassImage.Proofs.Shrinking
import ClassImage.Proofs.CodeUnits
import ClassImage.Proofs.FormatExact
import ClassImage.Proofs.Lookup
import ClassImage.Proofs.Slots
import ClassImage.Proofs.Sinks
import ClassImage.Proofs.Accounting
import ClassImage.Proofs.FinalNop
import ClassImage.Proofs.FileTree
import ClassImage.Proofs.OutputDirectory
import ClassImage.Proofs.Remapping
