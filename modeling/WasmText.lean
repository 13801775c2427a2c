import WasmText.Source.Span
import WasmText.Source.Character
import WasmText.Source.Utf8
import WasmText.Token
import WasmText.Token.Lexer
import WasmText.Token.Stream
import WasmText.Token.Cursor
import WasmText.ParseError
import WasmText.Tree
import WasmText.Tree.StringLiteral
import WasmText.Tree.Parser
import WasmText.Tree.Descent
import WasmText.Binary.Leb128
import WasmText.Binary.Framing
import WasmText.Literal
import WasmText.Literal.Integer
import WasmText.Literal.Rounding
import WasmText.Literal.Float
import WasmText.Literal.Hexadecimal
import WasmText.Error
import WasmText.Module.Types
import WasmText.Module.Names
import WasmText.Module.Binary
import WasmText.Module.Draft
import WasmText.Module.Registrar
import WasmText.Module.Field
import WasmText.Module.FunctionField
import WasmText.Module.Declaration
import WasmText.Instruction.Opcode
import WasmText.Instruction.Basic
import WasmText.Instruction.Signature
import WasmText.Instruction.Body
import WasmText.Instruction.Evaluation
import WasmText.Compile
import WasmText.CommandLine.Invocation
import WasmText.CommandLine.Arguments
import WasmText.CommandLine.Host
import WasmText.CommandLine.Files
import WasmText.CommandLine.Run
import WasmText.Main
import WasmText.Proofs.Binary.Leb128
import WasmText.Proofs.Binary.Reader
import WasmText.Proofs.Instruction.Reader
import WasmText.Proofs.Module.Types
import WasmText.Proofs.Instruction.Linear
import WasmText.Proofs.Steps
import WasmText.Proofs.Instruction.Operand
import WasmText.Proofs.Instruction.Compile
import WasmText.Proofs.Instruction.Scope
import WasmText.Proofs.Instruction.Decode
import WasmText.Proofs.Instruction.Branch
import WasmText.Proofs.Module.Registration
import WasmText.Proofs.Module.Reader
import WasmText.Proofs.Module.Sound
import WasmText.Proofs.Module.Declaration
import WasmText.Proofs.Compile
import WasmText.Proofs.Token.Lexeme
import WasmText.Proofs.Token.Tiling
import WasmText.Proofs.Token.Layout
import WasmText.Proofs.Tree.Guise
import WasmText.Proofs.Tree.Places
import WasmText.Proofs.Tree.Printing
import WasmText.Proofs.Tree.RoundTrip
import WasmText.Proofs.Instruction.Guise
import WasmText.Proofs.Module.Guise
import WasmText.Proofs.Layout
import WasmText.Proofs.Instruction.Respelling
import WasmText.Proofs.Instruction.Reread
import WasmText.Proofs.Module.Outward
import WasmText.Proofs.Module.Site
import WasmText.Proofs.Spelling
import WasmText.Proofs.Renaming
import WasmText.Proofs.Tree.Grammar
import WasmText.Proofs.Instruction.Signed
import WasmText.Proofs.Module.Slots
import WasmText.Proofs.Module.Fields
import WasmText.Proofs.Module.Declared
import WasmText.Proofs.Signatures
import WasmText.Proofs.Locals
import WasmText.Proofs.Wrapping
import WasmText.Proofs.Isolation
import WasmText.Proofs.Module.Groups
import WasmText.Proofs.Reordering
import WasmText.Proofs.Instruction.Numbering
import WasmText.Proofs.Numbering
import WasmText.Proofs.Module.Finishing
import WasmText.Proofs.Module.Census
import WasmText.Proofs.Imports
import WasmText.Proofs.Abbreviations
import WasmText.Proofs.Locations
import WasmText.Proofs.Limits
import WasmText.Proofs.Tables
import WasmText.Proofs.Instruction.FormCount
import WasmText.Proofs.Instruction.Evaluation
import WasmText.Proofs.Instruction.Enclosure
import WasmText.Proofs.Instruction.Omission
import WasmText.Proofs.Instruction.TypeUses
import WasmText.Proofs.TypeUses
import WasmText.Proofs.Module.Interning
import WasmText.Proofs.Binary.Shortest
import WasmText.Proofs.Source.Numeral
import WasmText.Proofs.Instruction.Constant
import WasmText.Proofs.Instruction.BlockType
import WasmText.Proofs.Instruction.CallType
import WasmText.Proofs.Literal.Nearest
import WasmText.Proofs.Literal.Rounding
import WasmText.Proofs.Literal.Decimal
import WasmText.Proofs.Literal.FloatPattern
import WasmText.Proofs.Literal.Hexadecimal
import WasmText.Proofs.Literal.Float
import WasmText.Proofs.Instruction.FloatConstant
import WasmText.Proofs.InstructionNames
import WasmText.Proofs.Literal.Signs
import WasmText.Proofs.Tree.Separators
import WasmText.Proofs.Segments
import WasmText.Proofs.Module.LocalRuns
import WasmText.Proofs.Module.Refusal
import WasmText.Proofs.Token.Cursor
import WasmText.Proofs.CommandLine.Arguments
import WasmText.Proofs.CommandLine.Host
import WasmText.Proofs.CommandLine.Files
import WasmText.Proofs.CommandLine.Extension
import WasmText.Proofs.CommandLine.Delivery
import WasmText.Proofs.Token.BlockComment
import WasmText.Proofs.Tree.Size
import WasmText.Proofs.Tree.Agreement
import WasmText.Proofs.Tree.Descent
import WasmText.Proofs.Tree.Progress
