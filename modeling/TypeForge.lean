import TypeForge.Position
import TypeForge.Text.CharClass
import TypeForge.Text.WhiteSpace
import TypeForge.Text.NonPrinting
import TypeForge.Text.Combining
import TypeForge.Text.Quoted
import TypeForge.Text.Terminal
import TypeForge.Token
import TypeForge.ThroughFirst
import TypeForge.Token.Cursor
import TypeForge.Token.Listing
import TypeForge.Ast
import TypeForge.Ast.Outline
import TypeForge.Ast.Nodes
import TypeForge.Parser.Stream
import TypeForge.Parser.Template
import TypeForge.Parser.Expr
import TypeForge.Parser.Program
import TypeForge.Scope
import TypeForge.Library
import TypeForge.Combinator
import TypeForge.TypeScript
import TypeForge.TypeScript.Render
import TypeForge.Generate.Monad
import TypeForge.Generate.Expr
import TypeForge.Generate.Program
import TypeForge.Compile
import TypeForge.Disk.Path
import TypeForge.Disk
import TypeForge.Build.Sources
import TypeForge.Build.Files
import TypeForge.Build.Watcher
import TypeForge.CommandLine.Options
import TypeForge.CommandLine.Run
import TypeForge.Main
import TypeForge.Proofs.Generate.Runs
import TypeForge.Proofs.Scoping.Source
import TypeForge.Proofs.Scoping.Target
import TypeForge.Proofs.WellFormed
import TypeForge.Proofs.Scope
import TypeForge.Proofs.Generate.Steps
import TypeForge.Proofs.Generate.Frame
import TypeForge.Proofs.Generate.Succeeds
import TypeForge.Proofs.Generate.Patterns
import TypeForge.Proofs.Scoping.Agreement
import TypeForge.Proofs.Scoping.Conveys
import TypeForge.Proofs.Scoping.Exposed
import TypeForge.Proofs.Scoping.Conversion
import TypeForge.Proofs.Parser.Accepts
import TypeForge.Proofs.Parser.Precedence
import TypeForge.Proofs.Parser.RoundTrip
import TypeForge.Proofs.Parser.Consumes
import TypeForge.Proofs.Parser.Linearisation
import TypeForge.Proofs.Lowering.Semantics
import TypeForge.Proofs.Lowering.Preserves
import TypeForge.Proofs.Parser.Lockstep
import TypeForge.Proofs.Parser.Layout
import TypeForge.Proofs.Generate.Layout
import TypeForge.Proofs.Hygiene.Occurrences
import TypeForge.Proofs.Hygiene.Capture
import TypeForge.Proofs.Hygiene.Temps
import TypeForge.Proofs.Hygiene.Ledger
import TypeForge.Proofs.Hygiene.Accounting
import TypeForge.Proofs.Hygiene.Fresh
import TypeForge.Proofs.Scoping.Sections
import TypeForge.Proofs.Token.Tiling
import TypeForge.Proofs.Token.Driving
import TypeForge.Proofs.Relocation
import TypeForge.Proofs.Parser.Mirror
import TypeForge.Proofs.Parser.Mirror.Syntax
import TypeForge.Proofs.Token.Extension
import TypeForge.Proofs.Parser.Concatenation
import TypeForge.Proofs.Parser.Inherits
import TypeForge.Proofs.Parser.Spelling
import TypeForge.Proofs.Output.Words
import TypeForge.Proofs.Output.Atoms
import TypeForge.Proofs.Output.Tally
import TypeForge.Proofs.Output.Text
import TypeForge.Proofs.Output.Imports
import TypeForge.Proofs.Output.Blocks
import TypeForge.Proofs.Output.Lifted
import TypeForge.Proofs.Disk.Places
import TypeForge.Proofs.Disk.Paths
import TypeForge.Proofs.Disk.Listings
import TypeForge.Proofs.Build.Order
import TypeForge.Proofs.Build.Search
import TypeForge.Proofs.Build.Watching
import TypeForge.Proofs.Parser.Diagnoses
import TypeForge.Proofs.Parser.Diagnostics
import TypeForge.Proofs.Generate.Failures
import TypeForge.Proofs.Diagnostics
import TypeForge.Proofs.Parser.Templates
import TypeForge.Proofs.Parser.Tracks
import TypeForge.Proofs.Parser.Tracks.Syntax
import TypeForge.Proofs.Parser.Objects
import TypeForge.Proofs.Generate.Oblivious
import TypeForge.Proofs.Output.Reader
import TypeForge.Proofs.Output.Literals
import TypeForge.Proofs.Output.Composition
import TypeForge.Proofs.Output.TemplateTexts
import TypeForge.Proofs.Scoping.Meetings
import TypeForge.Proofs.Scoping.Namesakes
import TypeForge.Proofs.Scoping.ArmPatterns
import TypeForge.Proofs.Scope.Reachable
import TypeForge.Proofs.Parser.Coincide
import TypeForge.Proofs.Parser.Lookahead
import TypeForge.Proofs.Parser.Positions
import TypeForge.Proofs.Parser.Positions.Syntax
import TypeForge.Proofs.Parser.Progress
import TypeForge.Proofs.Calling.Calls
import TypeForge.Proofs.Calling.Code
import TypeForge.Proofs.Calling.Codes
import TypeForge.Proofs.Calling.KnownArity
import TypeForge.Proofs.Token.LongestMatch
import TypeForge.Proofs.Token.Spacing
import TypeForge.Proofs.Disk.Components
import TypeForge.Proofs.Build.Collected
import TypeForge.Proofs.Text.Quoting
import TypeForge.Proofs.Outline.Rendering
import TypeForge.Proofs.Outline.Lines
import TypeForge.Proofs.Outline.Reading
import TypeForge.Proofs.Token.Listing
import TypeForge.Proofs.Output.StringLiterals
import TypeForge.Proofs.Output.Brackets
import TypeForge.Proofs.Generate.Modes
