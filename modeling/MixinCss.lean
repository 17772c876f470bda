import MixinCss.Build
import MixinCss.Check
import MixinCss.Color.Basic
import MixinCss.Color.Named
import MixinCss.Color.Reader
import MixinCss.Color.Shade
import MixinCss.Color.Space
import MixinCss.Command
import MixinCss.Compile
import MixinCss.Config.Flags
import MixinCss.Config.Load
import MixinCss.Config.Setting
import MixinCss.Config.Yaml
import MixinCss.Decimal.Binary
import MixinCss.Decimal.Integer
import MixinCss.Decimal.Layout
import MixinCss.Decimal.Reader
import MixinCss.Decimal.Shortest
import MixinCss.Files.Glob
import MixinCss.Files.Ignore
import MixinCss.Files.Path
import MixinCss.Files.Scan
import MixinCss.Files.Tree
import MixinCss.Grammar.Argument
import MixinCss.Grammar.Fault
import MixinCss.Grammar.Parse
import MixinCss.Grammar.Segment
import MixinCss.Library.Appearance
import MixinCss.Library.Box
import MixinCss.Library.Columns
import MixinCss.Library.Index
import MixinCss.Library.Position
import MixinCss.Library.Typography
import MixinCss.Log
import MixinCss.Main
import MixinCss.Mixin.Basic
import MixinCss.Mixin.Catalog
import MixinCss.Mixin.Recipe
import MixinCss.Mixin.Variables
import MixinCss.Report.Format
import MixinCss.Report.Issues
import MixinCss.Report.Json
import MixinCss.Report.Statistics
import MixinCss.Report.Style
import MixinCss.Sheet.Basic
import MixinCss.Sheet.Expansion
import MixinCss.Sheet.Render
import MixinCss.Sheet.Selector
import MixinCss.Source.Excerpt
import MixinCss.Source.Lines
import MixinCss.Text.Basic
import MixinCss.Text.Graphic
import MixinCss.Text.Kebab
import MixinCss.Text.Quoted
import MixinCss.Text.Regex
import MixinCss.Text.Space
import MixinCss.Text.Terminal
import MixinCss.Text.Utf8
import MixinCss.Text.Width
import MixinCss.Token.Basic
import MixinCss.Token.Lexer
import MixinCss.Value.Args
import MixinCss.Value.Basic
import MixinCss.Value.Numeric
import MixinCss.Proofs.Sheet.Expansion
import MixinCss.Proofs.Grammar.Arguments
import MixinCss.Proofs.Grammar.Statement
import MixinCss.Proofs.Grammar.Document
import MixinCss.Proofs.Check
import MixinCss.Proofs.Build
import MixinCss.Proofs.Sheet.Limit
import MixinCss.Proofs.Sheet.Order
import MixinCss.Proofs.Token.Lexemes
import MixinCss.Proofs.Grammar.Relocation
import MixinCss.Proofs.Compile
import MixinCss.Proofs.Decimal.Numeral
import MixinCss.Proofs.Grammar.Spelling
import MixinCss.Proofs.Grammar.Printed
import MixinCss.Proofs.Idempotent
import MixinCss.Proofs.Sheet.Attribution
import MixinCss.Proofs.Grammar.Offsets
import MixinCss.Proofs.Text.Order
import MixinCss.Proofs.Library.Callees
import MixinCss.Proofs.Library.Flat
import MixinCss.Proofs.Library.Yields
import MixinCss.Proofs.Sheet.Selector
import MixinCss.Proofs.Sheet.Parents
import MixinCss.Proofs.Sheet.Unknown
import MixinCss.Proofs.Usage
import MixinCss.Proofs.Files.Path
import MixinCss.Proofs.Files.Below
import MixinCss.Proofs.Files.Place
import MixinCss.Proofs.Files.Glob
import MixinCss.Proofs.Files.Growth
import MixinCss.Proofs.Outputs
import MixinCss.Proofs.Independence
import MixinCss.Proofs.Confinement
import MixinCss.Proofs.Source.Positions
import MixinCss.Proofs.Report.Shown
import MixinCss.Proofs.Sheet.Nesting
import MixinCss.Proofs.Grammar.Stored
import MixinCss.Proofs.Sheet.Associativity
import MixinCss.Proofs.Sheet.Transparency
import MixinCss.Proofs.Report.Coloring
import MixinCss.Proofs.Text.Terminal
import MixinCss.Proofs.Config.Precedence
import MixinCss.Proofs.Library.Names
import MixinCss.Proofs.Grammar.WellFormed
import MixinCss.Proofs.Grammar.Brackets
import MixinCss.Proofs.Grammar.InRange
import MixinCss.Proofs.Library.Spellings
import MixinCss.Proofs.Library.Rows
import MixinCss.Proofs.Library.Percentages
import MixinCss.Proofs.Grammar.Dimensions
import MixinCss.Proofs.Files.Mirror
import MixinCss.Proofs.Files.Sweep
import MixinCss.Proofs.Library.Background
import MixinCss.Proofs.Library.Settings
import MixinCss.Proofs.Report.Order
import MixinCss.Proofs.Ranking
import MixinCss.Proofs.Source.Terminators
