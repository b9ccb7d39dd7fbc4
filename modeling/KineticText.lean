import KineticText.Animator
import KineticText.Codeword
import KineticText.Command
import KineticText.Compile
import KineticText.Diagnostic.Basic
import KineticText.Diagnostic.Report
import KineticText.Displacement
import KineticText.Highlight.Lexeme
import KineticText.Highlight.Terminal
import KineticText.Log.Hub
import KineticText.Log.Note
import KineticText.Log.Template
import KineticText.Number.Binary64
import KineticText.Number.Decimal
import KineticText.Number.Numeral
import KineticText.Number.Shortest
import KineticText.Params
import KineticText.Proofs.Animator.Displaying
import KineticText.Proofs.Command.Blocks
import KineticText.Proofs.Command.Decoding
import KineticText.Proofs.Command.Fields
import KineticText.Proofs.Command.Parts
import KineticText.Proofs.Command.Places
import KineticText.Proofs.Compile.Acceptance
import KineticText.Proofs.Compile.Composition
import KineticText.Proofs.Compile.Defaults
import KineticText.Proofs.Compile.Failure
import KineticText.Proofs.Compile.Independence
import KineticText.Proofs.Compile.Logging
import KineticText.Proofs.Compile.Offsets
import KineticText.Proofs.Compile.Outcome
import KineticText.Proofs.Compile.Renaming
import KineticText.Proofs.Compile.Reports
import KineticText.Proofs.Compile.Stages
import KineticText.Proofs.Compile.Stripping
import KineticText.Proofs.Diagnostic.Lines
import KineticText.Proofs.Diagnostic.Quotes
import KineticText.Proofs.Displacement.Folding
import KineticText.Proofs.Highlight.Agreement
import KineticText.Proofs.Highlight.Lexing
import KineticText.Proofs.Highlight.Tags
import KineticText.Proofs.Log.Journal
import KineticText.Proofs.Log.Templates
import KineticText.Proofs.Number.Doubles
import KineticText.Proofs.Number.Exactness
import KineticText.Proofs.Number.Grammar
import KineticText.Proofs.Number.Grids
import KineticText.Proofs.Number.Literals
import KineticText.Proofs.Number.Nearest
import KineticText.Proofs.Number.Numerals
import KineticText.Proofs.Number.Range
import KineticText.Proofs.Number.Rounding
import KineticText.Proofs.Number.Shortest
import KineticText.Proofs.Registry.Names
import KineticText.Proofs.Registry.Offers
import KineticText.Proofs.Registry.Registering
import KineticText.Proofs.Registry.Registration
import KineticText.Proofs.Registry.Standard
import KineticText.Proofs.Reveal.Coherence
import KineticText.Proofs.Reveal.Playing
import KineticText.Proofs.Reveal.Sessions
import KineticText.Proofs.Reveal.Timing
import KineticText.Proofs.Settings.Guarantees
import KineticText.Proofs.Settings.Reading
import KineticText.Proofs.Text.Digits
import KineticText.Proofs.Text.Marks
import KineticText.Proofs.Text.Occurrences
import KineticText.Proofs.Text.Quoting
import KineticText.Proofs.Text.Runs
import KineticText.Proofs.Text.Segments
import KineticText.Proofs.Timeline.Accounting
import KineticText.Proofs.Timeline.Alternation
import KineticText.Proofs.Timeline.Cues
import KineticText.Proofs.Timeline.Findings
import KineticText.Proofs.Timeline.Partners
import KineticText.Proofs.Timeline.Places
import KineticText.Proofs.Timeline.Regions
import KineticText.Proofs.Timeline.Separation
import KineticText.Proofs.Token.Diagnosis
import KineticText.Proofs.Token.Joining
import KineticText.Proofs.Token.Moving
import KineticText.Proofs.Token.Pauses
import KineticText.Proofs.Token.Piece
import KineticText.Proofs.Token.Pointing
import KineticText.Proofs.Token.Rescanning
import KineticText.Proofs.Token.Scanning
import KineticText.Proofs.Token.Shapes
import KineticText.Proofs.Token.Splitting
import KineticText.Proofs.Token.Stripping
import KineticText.Proofs.Token.Tiling
import KineticText.Proofs.Value.Arranging
import KineticText.Proofs.Value.Layouts
import KineticText.Proofs.Value.Literals
import KineticText.Proofs.Value.Paths
import KineticText.Registry
import KineticText.Reveal.Notes
import KineticText.Reveal.Player
import KineticText.Reveal.Schedule
import KineticText.Session
import KineticText.Settings.Basic
import KineticText.Settings.Fields
import KineticText.Settings.Reading
import KineticText.Text.Basic
import KineticText.Text.Digit
import KineticText.Text.Printable
import KineticText.Text.Quoted
import KineticText.Text.Segments
import KineticText.Timeline.Pairing
import KineticText.Timeline.Region
import KineticText.Token.Basic
import KineticText.Token.Pause
import KineticText.Token.Scanner
import KineticText.Value.Arranged
import KineticText.Value.Basic
import KineticText.Value.Layout
import KineticText.Value.Literal
import KineticText.Value.Path
