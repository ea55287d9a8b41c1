import DocOutline.Kind
import DocOutline.Forest
import DocOutline.Forest.Edges
import DocOutline.Forest.Numbered
import DocOutline.Block
import DocOutline.Document
import DocOutline.Document.Builder
import DocOutline.Document.Nested
import DocOutline.Outline
import DocOutline.Outline.Visible
import DocOutline.Outline.Peaks
import DocOutline.Section
import DocOutline.Text.Blank
import DocOutline.Text.CaseMap
import DocOutline.Text.Cased
import DocOutline.Text.Digit
import DocOutline.Text.Lines
import DocOutline.Text.Lowercase
import DocOutline.Text.Occurs
import DocOutline.Text.Order
import DocOutline.Text.Tidy
import DocOutline.Json
import DocOutline.Entry
import DocOutline.Entry.Order
import DocOutline.Entry.Filter
import DocOutline.Entry.Text
import DocOutline.Entry.Json
import DocOutline.SyntaxTree
import DocOutline.Format
import DocOutline.Markdown
import DocOutline.Toml.Value
import DocOutline.Toml.Number
import DocOutline.Toml.DateTime
import DocOutline.Toml.Lexical
import DocOutline.Toml.Tables
import DocOutline.Toml.Reader
import DocOutline.Config
import DocOutline.Path
import DocOutline.Error
import DocOutline.FileSystem
import DocOutline.Discovery
import DocOutline.Discovery.Reachable
import DocOutline.Loading
import DocOutline.CommandLine.Arguments
import DocOutline.CommandLine.Run
import DocOutline.Listing
import DocOutline.Main
import DocOutline.Proofs.Linked
import DocOutline.Proofs.Walks
import DocOutline.Proofs.OnePass
import DocOutline.Proofs.Nesting
import DocOutline.Proofs.Headings
import DocOutline.Proofs.Preorder
import DocOutline.Proofs.Spots
import DocOutline.Proofs.Conversion
import DocOutline.Proofs.ConvertedDocument
import DocOutline.Proofs.MarkdownSections
import DocOutline.Proofs.DepthLimit
import DocOutline.Proofs.AcceptedArguments
import DocOutline.Proofs.Runs
import DocOutline.Proofs.ArgumentOrder
import DocOutline.Proofs.JsonOutput
import DocOutline.Proofs.JsonReading
import DocOutline.Proofs.Extents
import DocOutline.Proofs.Indices
import DocOutline.Proofs.SectionIndices
import DocOutline.Proofs.OutlineLines
import DocOutline.Proofs.VerbatimMatches
import DocOutline.Proofs.SortedEntries
import DocOutline.Proofs.TextReading
import DocOutline.Proofs.TidyTitles
import DocOutline.Text.Bytes
import DocOutline.Proofs.Continuations
import DocOutline.Proofs.ClosingRuns
import DocOutline.Proofs.Scans
import DocOutline.Proofs.Expansion
import DocOutline.Proofs.Brackets
