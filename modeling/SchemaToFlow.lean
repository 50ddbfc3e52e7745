import SchemaToFlow.Text.Span
import SchemaToFlow.Text.Position
import SchemaToFlow.FirstSeen
import SchemaToFlow.NameTable
import SchemaToFlow.Interner
import SchemaToFlow.Diagnostic
import SchemaToFlow.Schema.Token
import SchemaToFlow.Schema.Location
import SchemaToFlow.Schema.Lexeme
import SchemaToFlow.Schema.Scanner
import SchemaToFlow.Schema.Numeral
import SchemaToFlow.Schema.Document
import SchemaToFlow.Schema.Reading
import SchemaToFlow.Schema.Reading.Value
import SchemaToFlow.Schema.Reading.Definition
import SchemaToFlow.Schema.Parse
import SchemaToFlow.Node.Basic
import SchemaToFlow.Node.OfDocument
import SchemaToFlow.Node.References
import SchemaToFlow.Node.Meaning
import SchemaToFlow.Flow.Program
import SchemaToFlow.Flow.Printer
import SchemaToFlow.Flow.Printing
import SchemaToFlow.Json
import SchemaToFlow.Flow.Json
import SchemaToFlow.Generate
import SchemaToFlow.Command.Arguments
import SchemaToFlow.Command.System
import SchemaToFlow.Command.WorkingDirectory
import SchemaToFlow.Command.Run
import SchemaToFlow.Main
import SchemaToFlow.Proofs.FirstSeen
import SchemaToFlow.Proofs.Evaluation
import SchemaToFlow.Proofs.Direct
import SchemaToFlow.Proofs.Placed
import SchemaToFlow.Proofs.Translation
import SchemaToFlow.Proofs.Forward
import SchemaToFlow.Proofs.Grammar
import SchemaToFlow.Proofs.Numerals
import SchemaToFlow.Proofs.Recognition
import SchemaToFlow.Proofs.Acceptance
import SchemaToFlow.Proofs.Generation
import SchemaToFlow.Proofs.Unfolding
import SchemaToFlow.Proofs.Sharing
import SchemaToFlow.Proofs.Recast
import SchemaToFlow.Proofs.Transport
import SchemaToFlow.Proofs.Layout
import SchemaToFlow.Proofs.Writing
import SchemaToFlow.Proofs.Lexing
import SchemaToFlow.Proofs.Rereading
import SchemaToFlow.Proofs.Roundtrip
import SchemaToFlow.Proofs.Scanning
import SchemaToFlow.Proofs.Faithful
import SchemaToFlow.Proofs.Lookahead
import SchemaToFlow.Proofs.Tiling
import SchemaToFlow.Proofs.Seam
import SchemaToFlow.Proofs.Concatenation
import SchemaToFlow.Proofs.FirstError
import SchemaToFlow.Proofs.Unnamed
import SchemaToFlow.Proofs.Emission
import SchemaToFlow.Proofs.WorkingDirectory
import SchemaToFlow.Proofs.Commands
import SchemaToFlow.Proofs.Checking
import SchemaToFlow.Proofs.JsonText
import SchemaToFlow.Proofs.ReadBack
import SchemaToFlow.Proofs.Links
import SchemaToFlow.Proofs.PostOrder
import SchemaToFlow.Proofs.Arrangement
import SchemaToFlow.Proofs.Exactness
import SchemaToFlow.Proofs.Recording
import SchemaToFlow.Proofs.History
import SchemaToFlow.Proofs.LexicalForm
import SchemaToFlow.Proofs.Relexing
import SchemaToFlow.Proofs.Utf8
import SchemaToFlow.Proofs.ByteScanning
import SchemaToFlow.Proofs.OffsetRange
import SchemaToFlow.Proofs.ReaderRuns
import SchemaToFlow.Proofs.Steps
import SchemaToFlow.Proofs.Findings
import SchemaToFlow.Proofs.Outline
import SchemaToFlow.Proofs.Spans
import SchemaToFlow.Proofs.Positions
import SchemaToFlow.Proofs.Integers
import SchemaToFlow.Proofs.Printing
import SchemaToFlow.Proofs.Strings
import SchemaToFlow.Proofs.Indentation
import SchemaToFlow.Proofs.Interning
