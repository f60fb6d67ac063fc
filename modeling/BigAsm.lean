import BigAsm.Library.Runs
import BigAsm.Library.Bytes
import BigAsm.Library.BitFields
import BigAsm.Library.Rv128
import BigAsm.Library.Rv128Alu
import BigAsm.Library.OrderedMaps
import BigAsm.Library.Edits
import BigAsm.Library.CData
import BigAsm.Library.Numerals
import BigAsm.Library.Lassos
import BigAsm.Library.Simulations
import BigAsm.Library.Rv128Machine
import BigAsm.Library.Traces
import BigAsm.Instruction
import BigAsm.Token
import BigAsm.Operands
import BigAsm.Section
import BigAsm.State
import BigAsm.Opcodes
import BigAsm.Finish
import BigAsm.Tokenizer
import BigAsm.Assemble
import BigAsm.Statement
import BigAsm.Effects
import BigAsm.Actions
import BigAsm.Listing
import BigAsm.Growth
import BigAsm.Literals
import BigAsm.LoadConstant
import BigAsm.ConstantChains
import BigAsm.Arithmetic
import BigAsm.Layout
import BigAsm.Relocation
import BigAsm.Finished
import BigAsm.Placement
import BigAsm.Labels
import BigAsm.Schedule
import BigAsm.Addresses
import BigAsm.Sizes
import BigAsm.Farcalls
import BigAsm.Jumps
import BigAsm.Independence
import BigAsm.Splicing
import BigAsm.Main
import BigAsm.Termination
import BigAsm.Alignment
import BigAsm.Declared
import BigAsm.ElfFormat
import BigAsm.ElfWriter
import BigAsm.ElfImage
import BigAsm.ElfTables
import BigAsm.Scanning
import BigAsm.Lines
import BigAsm.Comments
import BigAsm.Numbers
import BigAsm.Hex
import BigAsm.Constants
import BigAsm.Immediates
import BigAsm.MemoryOperands
import BigAsm.TwoPass
import BigAsm.Permissions
import BigAsm.Execution
import BigAsm.Loading
import BigAsm.Rebasing
import BigAsm.Interleaving
import BigAsm.Outputs
import BigAsm.SymbolTable
import BigAsm.Printing
