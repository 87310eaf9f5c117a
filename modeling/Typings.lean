import Typings.Answer
import Typings.Arguments
import Typings.Comment
import Typings.Config
import Typings.Decimal.Binary64
import Typings.Decimal.Notation
import Typings.Decimal.Shortest
import Typings.Declaration
import Typings.Diagnostic
import Typings.Error
import Typings.ExportTable
import Typings.Expr
import Typings.Expr.Display
import Typings.Expr.Json
import Typings.Expr.References
import Typings.FileTree
import Typings.Identity
import Typings.Json
import Typings.Json.Printer
import Typings.Json.Reading
import Typings.Json.Token
import Typings.LogFormat
import Typings.Main
import Typings.Module
import Typings.OrderedMap
import Typings.Outline
import Typings.Path
import Typings.Position
import Typings.Proofs.Action
import Typings.Proofs.Advance
import Typings.Proofs.Agreement
import Typings.Proofs.BelowBase
import Typings.Proofs.BindingList
import Typings.Proofs.Blanking
import Typings.Proofs.Bookkeeping
import Typings.Proofs.Braces
import Typings.Proofs.Brackets
import Typings.Proofs.Bytewise.Bytes
import Typings.Proofs.Bytewise.Comment
import Typings.Proofs.Bytewise.Cursor
import Typings.Proofs.Bytewise.Declaration
import Typings.Proofs.Bytewise.Slices
import Typings.Proofs.Bytewise.Span
import Typings.Proofs.Bytewise.Statement
import Typings.Proofs.Bytewise.Term
import Typings.Proofs.Bytewise.Tokens
import Typings.Proofs.Chunking
import Typings.Proofs.Cover
import Typings.Proofs.Decoding
import Typings.Proofs.Evolves
import Typings.Proofs.Failure
import Typings.Proofs.FirstMention
import Typings.Proofs.FunctionType
import Typings.Proofs.Grounded
import Typings.Proofs.Heritage
import Typings.Proofs.ImportCircles
import Typings.Proofs.ImportFrame
import Typings.Proofs.ImportStep
import Typings.Proofs.Invariant
import Typings.Proofs.JoinedArguments
import Typings.Proofs.JsonText
import Typings.Proofs.Keeps
import Typings.Proofs.Keywords
import Typings.Proofs.LaidOut
import Typings.Proofs.Layout
import Typings.Proofs.LevelText
import Typings.Proofs.Levels
import Typings.Proofs.Listed
import Typings.Proofs.Listing
import Typings.Proofs.LoadOrder
import Typings.Proofs.Locals
import Typings.Proofs.Location
import Typings.Proofs.Lockstep
import Typings.Proofs.Mentions
import Typings.Proofs.Nesting
import Typings.Proofs.NestingLimit
import Typings.Proofs.NewNames
import Typings.Proofs.Nodes
import Typings.Proofs.NormalPath
import Typings.Proofs.Noted
import Typings.Proofs.Offsets
import Typings.Proofs.OneModule
import Typings.Proofs.Operations
import Typings.Proofs.OrderedMap
import Typings.Proofs.OutlineText
import Typings.Proofs.OutlineTree
import Typings.Proofs.PartialRead
import Typings.Proofs.Positions
import Typings.Proofs.Provided
import Typings.Proofs.Query
import Typings.Proofs.QuotedText
import Typings.Proofs.Reached
import Typings.Proofs.ReadingOrder
import Typings.Proofs.Recognition
import Typings.Proofs.Reexports
import Typings.Proofs.Registered
import Typings.Proofs.Remarks
import Typings.Proofs.Repetition
import Typings.Proofs.Request
import Typings.Proofs.Resolvable
import Typings.Proofs.RoundTrip
import Typings.Proofs.Running
import Typings.Proofs.Scan
import Typings.Proofs.ScanStep
import Typings.Proofs.Scanning
import Typings.Proofs.Scans
import Typings.Proofs.Session
import Typings.Proofs.Settled
import Typings.Proofs.Shapes
import Typings.Proofs.ShortestSpan
import Typings.Proofs.Sound
import Typings.Proofs.Spelling
import Typings.Proofs.Squeeze
import Typings.Proofs.SqueezedScan
import Typings.Proofs.Stability
import Typings.Proofs.Statements
import Typings.Proofs.Stems
import Typings.Proofs.Store
import Typings.Proofs.StringLiteral
import Typings.Proofs.Termination
import Typings.Proofs.TokenText
import Typings.Proofs.TypeParameter
import Typings.Proofs.Unambiguous
import Typings.Proofs.Unrenamed
import Typings.Proofs.Upkeep
import Typings.Proofs.Wildcard
import Typings.Proofs.Written
import Typings.Proofs.WrittenClauses
import Typings.Proofs.WrittenToken
import Typings.Resolver
import Typings.Run
import Typings.Settings
import Typings.Span
import Typings.Statement
import Typings.Statement.Clause
import Typings.Statement.Export
import Typings.Statement.Head
import Typings.Statement.Import
import Typings.Statement.Meaning
import Typings.Statement.Remark
import Typings.Store
import Typings.Store.Exports
import Typings.Store.Imports
import Typings.Store.Resolve
import Typings.Term
import Typings.Term.Object
import Typings.Term.Parser
import Typings.Term.Reading
import Typings.Term.Resolve
import Typings.Term.Size
import Typings.Text
import Typings.Text.Hidden
import Typings.Text.Quoted
import Typings.Tokens
import Typings.Tokens.Front
import Typings.Word
