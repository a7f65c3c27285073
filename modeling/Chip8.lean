import Chip8.Word
import Chip8.Blank
import Chip8.Numeral
import Chip8.Register
import Chip8.Instruction
import Chip8.Decode
import Chip8.Opcode
import Chip8.Flow
import Chip8.Token
import Chip8.Disassembly
import Chip8.Json.Basic
import Chip8.Json.Lexeme
import Chip8.Json.Parser
import Chip8.Json.Printer
import Chip8.Machine
import Chip8.Probe
import Chip8.Image.Access
import Chip8.Image.Basic
import Chip8.AddressSet
import Chip8.Walk
import Chip8.Analysis
import Chip8.Graph
import Chip8.Listing
import Chip8.Labels
import Chip8.Json.Instruction
import Chip8.Json.Flow
import Chip8.Json.Token
import Chip8.Json.Limits
import Chip8.Json.Machine
import Chip8.Json.Labels
import Chip8.Disk
import Chip8.Command.Basic
import Chip8.Command.Options
import Chip8.Command.Parser
import Chip8.Command.Report
import Chip8.Command.Run
import Chip8.Main
import Chip8.Proofs.Address
import Chip8.Proofs.Basic
import Chip8.Proofs.Flow
import Chip8.Proofs.Image.Program
import Chip8.Proofs.Walk.Site
import Chip8.Proofs.Walk.Invariant
import Chip8.Proofs.Walk.Growth
import Chip8.Proofs.Analysis
import Chip8.Proofs.Execution
import Chip8.Proofs.Graph.Sweep
import Chip8.Proofs.Graph.Blocks
import Chip8.Proofs.Graph.Edges
import Chip8.Proofs.Graph.Functions
import Chip8.Proofs.Graph.Search
import Chip8.Proofs.Frames
import Chip8.Proofs.Successors
import Chip8.Proofs.Graph.Agreement
import Chip8.Proofs.Entries
import Chip8.Proofs.Interpreter
import Chip8.Proofs.Confinement
import Chip8.Proofs.Budget
import Chip8.Proofs.Word
import Chip8.Proofs.Numeral
import Chip8.Proofs.Disassembly
import Chip8.Proofs.Listing
import Chip8.Proofs.Command
import Chip8.Proofs.Range
import Chip8.Proofs.Probe
import Chip8.Proofs.Detection
import Chip8.Proofs.Loading
import Chip8.Proofs.Window
import Chip8.Proofs.Graph.Lines
import Chip8.Proofs.Labels
import Chip8.Proofs.Json.Lexeme
import Chip8.Proofs.Json.Document
import Chip8.Proofs.Json.Members
import Chip8.Proofs.Json.Labels
import Chip8.Proofs.Json.Codecs
import Chip8.Proofs.Disk
import Chip8.Proofs.Publication
import Chip8.Proofs.Export
import Chip8.Proofs.Fields
import Chip8.Proofs.Disassembly.Operands
import Chip8.Proofs.Disassembly.Template
import Chip8.Proofs.Disassembly.Unambiguous
import Chip8.Proofs.Decode
import Chip8.Proofs.Disassembly.Tokens
import Chip8.Proofs.Encoding
import Chip8.Proofs.Inputs
import Chip8.Proofs.Numeral.Grammar
import Chip8.Proofs.Image.Segments
import Chip8.Proofs.Walk.Turn
import Chip8.Proofs.Graph.Loops
import Chip8.Proofs.Termination
