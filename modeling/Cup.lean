import Cup.Lib.Run
import Cup.Lib.Probe
import Cup.Lib.Polish
import Cup.Lib.ParentArray
import Cup.Lib.TextPosition
import Cup.Token
import Cup.Vector
import Cup.VectorRuns
import Cup.State
import Cup.Lexer
import Cup.Pool
import Cup.Types
import Cup.Lib.Image
import Cup.TypeNames
import Cup.Vars
import Cup.Symbols
import Cup.VarTable
import Cup.Interning
import Cup.Parser
import Cup.Stream
import Cup.ParserForm
import Cup.Lib.X64
import Cup.Lib.X64Code
import Cup.Lib.X64Run
import Cup.Emit
import Cup.Encoding
import Cup.Codegen
import Cup.Resolver
import Cup.Assignment
import Cup.Inference
import Cup.Typing
import Cup.Rewriting
import Cup.Consumption
import Cup.Branching
import Cup.Definitions
import Cup.Indexing
import Cup.Boundary
import Cup.Moduler
import Cup.Bytecode
import Cup.Progress
import Cup.Scoping
import Cup.Literals
import Cup.Signatures
import Cup.Locations
import Cup.Lexing
import Cup.Generated
import Cup.Saved
import Cup.Lib.X64Memory
import Cup.Lib.X64Pieces
import Cup.Lib.X64Exits
import Cup.Lib.X64Targets
import Cup.Meaning
import Cup.Operation
import Cup.Operand
import Cup.Evaluation
import Cup.Calling
import Cup.Expressions
import Cup.Calls
import Cup.Pending
import Cup.Statement
import Cup.Execution
import Cup.Frame
import Cup.Function
import Cup.Targets
import Cup.Lib.StringTable
import Cup.Elf
import Cup.ElfLoad
import Cup.ElfBuild
import Cup.ElfLayout
import Cup.Lib.Reorder
import Cup.ElfSymbols
import Cup.ElfSections
import Cup.ElfBounds
import Cup.Sodump
import Cup.ElfCodec
import Cup.ElfRemoval
import Cup.ElfTables
import Cup.ElfRegenerate
import Cup.ElfRebuild
import Cup.ElfFile
import Cup.ElfClassify
import Cup.ElfReread
import Cup.ElfObject
import Cup.ElfRoundTrip
import Cup.ElfRoom
