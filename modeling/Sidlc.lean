import Sidlc.Library.StateExcept
import Sidlc.Library.LittleEndian
import Sidlc.Library.CellFormat
import Sidlc.Library.Escapes
import Sidlc.Library.Grammar
import Sidlc.Library.Decimal
import Sidlc.Ast
import Sidlc.Sha256
import Sidlc.Uuid
import Sidlc.Sif.Write
import Sidlc.Sif.Read
import Sidlc.Sif.Layout
import Sidlc.Sif.Equiv.Write
import Sidlc.Sif.Equiv.Read
import Sidlc.Sif.Equiv.RoundTrip
import Sidlc.Sif.Equiv.Canonical
import Sidlc.Sif.Equiv.HashChain
import Sidlc.Sif.Calls
import Sidlc.Sif.Equiv.Alignment
import Sidlc.Sif.Equiv.Stream
import Sidlc.Lexer
import Sidlc.Parser
import Sidlc.Equiv.Lexer
import Sidlc.Grammar
import Sidlc.Equiv.Parser
import Sidlc.Equiv.Printed
import Sidlc.Equiv.Acceptance
import Sidlc.Equiv.FatalNumbers
import Sidlc.Library.Progress
import Sidlc.Equiv.Termination
import Sidlc.Library.Printing
import Sidlc.Compile
import Sidlc.Sif.Decompile
import Sidlc.Numbering
import Sidlc.Equiv.Uuid
import Sidlc.Equiv.UuidText
import Sidlc.Sif.Equiv.Decompile
import Sidlc.Equiv.Sentences
import Sidlc.Equiv.Metadata
import Sidlc.Equiv.Compile
import Sidlc.Equiv.FunctionCounts
import Sidlc.Equiv.SyntaxTrees
import Sidlc.Equiv.PrintedTrees
import Sidlc.Equiv.Attachment
import Sidlc.Equiv.Gaps
import Sidlc.CheckedLexer
import Sidlc.Equiv.Places
import Sidlc.Equiv.LexerBounds
import Sidlc.Equiv.Coverage
import Sidlc.Equiv.Histories
import Sidlc.Equiv.Recompile
import Sidlc.Equiv.Encodable
import Sidlc.Library.Delimited
import Sidlc.Equiv.ExtensionIdentity
import Sidlc.Equiv.SourceLayout
import Sidlc.Equiv.Incremental
import Sidlc.Command
import Sidlc.Equiv.Command
import Sidlc.Generate.Equiv.CType
import Sidlc.Generate.Parameters
import Sidlc.Generate.UserSource
import Sidlc.Generate.ModuleSource
import Sidlc.Generate.Header
import Sidlc.Generate.Equiv.BitfieldMasks
import Sidlc.Generate.Equiv.Parameters
import Sidlc.Generate.Equiv.WireLayout
import Sidlc.Generate.Equiv.FunctionNumbers
import Sidlc.Generate.Equiv.Hygiene
import Sidlc.Library.Grouping
import Sidlc.Generate.Equiv.TypeOrder
import Sidlc.Library.CValue
import Sidlc.Library.CMemory
import Sidlc.Generate.Machine
import Sidlc.Generate.Execution
import Sidlc.Generate.Equiv.Builds
import Sidlc.Generate.Equiv.Calls
import Sidlc.Generate.Equiv.OutParameters
import Sidlc.Library.SecureHash
import Sidlc.Library.SecureHash1
import Sidlc.Equiv.Sha256
import Sidlc.Equiv.Sha1
import Sidlc.Equiv.FreshIds
import Sidlc.Equiv.Literals
import Sidlc.Generate.Equiv.Delivery
import Sidlc.Generate.Equiv.NullBlocks
import Sidlc.Equiv.Chains
import Sidlc.Generate.Server
import Sidlc.Generate.Equiv.Server
import Sidlc.Generate.Equiv.Extensions
import Sidlc.Generate.Equiv.Sessions
import Sidlc.Generate.HeaderText
import Sidlc.Generate.SourceText
import Sidlc.Library.Spelling
import Sidlc.Generate.Equiv.HeaderText
import Sidlc.Generate.Equiv.SourceText
import Sidlc.Program
import Sidlc.Sif.Equiv.Partial
import Sidlc.Equiv.Program
import Sidlc.Equiv.Texts
import Sidlc.Equiv.Exceptions
import Sidlc.Equiv.Cuts
import Sidlc.Equiv.Binding
