import EntityQuery.Cache.Basic
import EntityQuery.Cache.Run
import EntityQuery.Cache.Session
import EntityQuery.CachedCompiler
import EntityQuery.Compile
import EntityQuery.CompileError
import EntityQuery.Condition
import EntityQuery.Decimal.Double
import EntityQuery.Decimal.Layout
import EntityQuery.Decimal.Numeral
import EntityQuery.Decimal.Shortest
import EntityQuery.Decimal.Whole
import EntityQuery.Draft
import EntityQuery.Event
import EntityQuery.Failure
import EntityQuery.Grammar.Lexeme
import EntityQuery.Grammar.Pattern
import EntityQuery.Grammar.Rule
import EntityQuery.Grammar.Statement
import EntityQuery.Json.Basic
import EntityQuery.Json.Reader
import EntityQuery.Json.Record
import EntityQuery.Proofs.Cache.Balance
import EntityQuery.Proofs.Cache.Disabled
import EntityQuery.Proofs.Cache.Entries
import EntityQuery.Proofs.Cache.Failed
import EntityQuery.Proofs.Cache.History
import EntityQuery.Proofs.Cache.Purged
import EntityQuery.Proofs.Cache.Transparent
import EntityQuery.Proofs.Decimal.Bits
import EntityQuery.Proofs.Decimal.Overflow
import EntityQuery.Proofs.Decimal.Rounding
import EntityQuery.Proofs.Draft.Slots
import EntityQuery.Proofs.Json.Fitting
import EntityQuery.Proofs.Json.Presented
import EntityQuery.Proofs.Json.Record
import EntityQuery.Proofs.Language.Attempts
import EntityQuery.Proofs.Language.Classified
import EntityQuery.Proofs.Language.Cut
import EntityQuery.Proofs.Language.Denote
import EntityQuery.Proofs.Language.Exchange
import EntityQuery.Proofs.Language.Faithful
import EntityQuery.Proofs.Language.Forms
import EntityQuery.Proofs.Language.Lenient
import EntityQuery.Proofs.Language.Literal
import EntityQuery.Proofs.Language.Located
import EntityQuery.Proofs.Language.Match
import EntityQuery.Proofs.Language.Meaning
import EntityQuery.Proofs.Language.Numeral
import EntityQuery.Proofs.Language.Parts
import EntityQuery.Proofs.Language.Phrase
import EntityQuery.Proofs.Language.Place
import EntityQuery.Proofs.Language.Placed
import EntityQuery.Proofs.Language.Printed
import EntityQuery.Proofs.Language.Recognise
import EntityQuery.Proofs.Language.Relaid
import EntityQuery.Proofs.Language.Scan
import EntityQuery.Proofs.Language.Sliced
import EntityQuery.Proofs.Language.Tried
import EntityQuery.Proofs.Language.Viable
import EntityQuery.Proofs.Language.Walked
import EntityQuery.Proofs.Language.WellFormed
import EntityQuery.Proofs.Language.Whole
import EntityQuery.Proofs.Language.Word
import EntityQuery.Proofs.Settings.Distinct
import EntityQuery.Proofs.Settings.Layers
import EntityQuery.Proofs.Settings.Section
import EntityQuery.Proofs.Settings.Written
import EntityQuery.Proofs.Text.Lines
import EntityQuery.Query
import EntityQuery.Query.Json
import EntityQuery.Settings.Basic
import EntityQuery.Settings.Document.Reader
import EntityQuery.Settings.Document.Scalar
import EntityQuery.Settings.Document.Table
import EntityQuery.Settings.Document.Text
import EntityQuery.Settings.Document.Writer
import EntityQuery.Settings.Json
import EntityQuery.Settings.Load
import EntityQuery.Settings.Node
import EntityQuery.Settings.Variable
import EntityQuery.Text.Blank
import EntityQuery.Text.Escape
import EntityQuery.Text.Front
import EntityQuery.Text.Listing
import EntityQuery.Text.Location
import EntityQuery.Text.Quoted
import EntityQuery.Value.Basic
import EntityQuery.Value.Literal
