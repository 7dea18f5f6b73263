import GalecAudit.Audit.Container
import GalecAudit.Audit.Outcome
import GalecAudit.Audit.Representation
import GalecAudit.Audit.Settings
import GalecAudit.Audit.SettingsReader
import GalecAudit.Audit.Source
import GalecAudit.Check.Assignment
import GalecAudit.Check.Listing
import GalecAudit.Check.Routine
import GalecAudit.Check.ValueClass
import GalecAudit.Command.Arguments
import GalecAudit.Command.Run
import GalecAudit.Container.Listing
import GalecAudit.Container.References
import GalecAudit.Decimal.Float
import GalecAudit.Decimal.Shortest
import GalecAudit.Diagnostic
import GalecAudit.Files.Access
import GalecAudit.Files.Path
import GalecAudit.Grammar.Block
import GalecAudit.Grammar.Cursor
import GalecAudit.Grammar.Expression
import GalecAudit.Grammar.Parser
import GalecAudit.Grammar.Rule
import GalecAudit.Grammar.Scanner
import GalecAudit.Grammar.Statement
import GalecAudit.Grammar.SyntaxError
import GalecAudit.Json.Basic
import GalecAudit.Json.Encoding
import GalecAudit.Json.Fault
import GalecAudit.Json.Number
import GalecAudit.Json.Reader
import GalecAudit.Language.Block
import GalecAudit.Language.Causality
import GalecAudit.Language.Declaration
import GalecAudit.Language.Expression
import GalecAudit.Language.Operator
import GalecAudit.Language.Reference
import GalecAudit.Language.Routine
import GalecAudit.Language.Type
import GalecAudit.Main
import GalecAudit.Manifest.Basic
import GalecAudit.Manifest.Read
import GalecAudit.Manifest.ReadError
import GalecAudit.Manifest.Reconciliation
import GalecAudit.Markup.Attribute
import GalecAudit.Markup.Escape
import GalecAudit.Markup.Event
import GalecAudit.Markup.Fault
import GalecAudit.Markup.Offset
import GalecAudit.Markup.Piece
import GalecAudit.Proofs.Audit.Coverage
import GalecAudit.Proofs.Audit.Directory
import GalecAudit.Proofs.Audit.Verdict
import GalecAudit.Proofs.Check.Errors
import GalecAudit.Proofs.Check.Extension
import GalecAudit.Proofs.Check.Listing
import GalecAudit.Proofs.Check.Soundness
import GalecAudit.Proofs.Container.References
import GalecAudit.Proofs.Language.Mention
import GalecAudit.Proofs.Manifest.Extraction
import GalecAudit.Proofs.Manifest.Mismatches
import GalecAudit.Proofs.Manifest.Reconciliation
import GalecAudit.Proofs.Source.Induction
import GalecAudit.Proofs.Source.Recording
import GalecAudit.Proofs.Source.Replacement
import GalecAudit.Proofs.Source.Scope
import GalecAudit.Proofs.Source.Tables
import GalecAudit.Proofs.Source.Unrolling
import GalecAudit.Proofs.Variable.Elements
import GalecAudit.Proofs.Variable.Expansion
import GalecAudit.Proofs.Variable.Table
import GalecAudit.Report.Basic
import GalecAudit.Report.Style
import GalecAudit.Source.Expand
import GalecAudit.Source.Flatten
import GalecAudit.Source.Read
import GalecAudit.Source.Resolve
import GalecAudit.Source.Tree
import GalecAudit.Source.Unroll
import GalecAudit.Source.Value
import GalecAudit.Text.Affix
import GalecAudit.Text.Blank
import GalecAudit.Text.Bytes
import GalecAudit.Text.Digits
import GalecAudit.Text.Printable
import GalecAudit.Text.Quoted
import GalecAudit.Variable.Entry
import GalecAudit.Variable.Scope
import GalecAudit.Variable.Table
import GalecAudit.Proofs.Grammar.Word
import GalecAudit.Proofs.Variable.Bounds
import GalecAudit.Proofs.Variable.Lookup
import GalecAudit.Proofs.Variable.Shadowing
import GalecAudit.Proofs.Check.Choices
import GalecAudit.Proofs.Grammar.Reading
import GalecAudit.Proofs.Grammar.Literal
import GalecAudit.Proofs.Grammar.Name
import GalecAudit.Proofs.Grammar.Climbing
import GalecAudit.Proofs.Grammar.Levels
import GalecAudit.Proofs.Grammar.Atom
import GalecAudit.Proofs.Grammar.Sequence
import GalecAudit.Proofs.Grammar.Yield
import GalecAudit.Proofs.Source.Legible
import GalecAudit.Proofs.Grammar.Subscripts
import GalecAudit.Proofs.Grammar.Printed
import GalecAudit.Proofs.Grammar.Display
import GalecAudit.Proofs.Grammar.Spacing
import GalecAudit.Proofs.List.Distinct
import GalecAudit.Proofs.Source.Accesses
import GalecAudit.Proofs.Check.Declarations
import GalecAudit.Proofs.Source.Words
import GalecAudit.Proofs.Source.Iteration
import GalecAudit.Proofs.Source.Loops
import GalecAudit.Proofs.Source.Warnings
import GalecAudit.Proofs.Variable.Redeclaration
import GalecAudit.Proofs.Manifest.Tables
import GalecAudit.Proofs.Source.Descent
import GalecAudit.Proofs.Source.Records
import GalecAudit.Proofs.Source.Segments
import GalecAudit.Proofs.Check.Fields
import GalecAudit.Proofs.Manifest.Accumulation
import GalecAudit.Proofs.Source.Constructors
import GalecAudit.Proofs.Source.Numerals
import GalecAudit.Proofs.Grammar.Lexing
import GalecAudit.Proofs.Grammar.Numerals
import GalecAudit.Proofs.Grammar.Keyword
import GalecAudit.Proofs.Container.Resolution
import GalecAudit.Proofs.Files.Path
import GalecAudit.Proofs.Markup.Written
import GalecAudit.Proofs.Markup.Document
import GalecAudit.Proofs.Markup.Reading
import GalecAudit.Proofs.Container.Listing
import GalecAudit.Proofs.Audit.Reads
import GalecAudit.Proofs.Manifest.Sound
import GalecAudit.Proofs.Manifest.Lines
import GalecAudit.Proofs.Grammar.Spelling
import GalecAudit.Proofs.Grammar.Moving
import GalecAudit.Proofs.Grammar.Range
import GalecAudit.Proofs.Source.Ranges
import GalecAudit.Proofs.Source.Folding
import GalecAudit.Proofs.Variable.Odometer
