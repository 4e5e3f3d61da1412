import Offside.Bracketing
import Offside.Main
import Offside.Program.Session
import Offside.Scanner
import Offside.Proofs.Reading.Passing
import Offside.Proofs.Reading.Standing
import Offside.Proofs.Reading.Steps
import Offside.Proofs.Run
import Offside.Proofs.Run.Exact
import Offside.Proofs.Content
import Offside.Proofs.Bare
import Offside.Proofs.OneLine.Grammar
import Offside.Proofs.Scanning
import Offside.Proofs.OneLine.Derives
import Offside.Proofs.OneLine.Reading
import Offside.Proofs.OneLine.Soundness
import Offside.Proofs.OneLine.Completeness
import Offside.Proofs.OneLine.Cuts
import Offside.Proofs.OneLine.Unambiguous
import Offside.Proofs.OneLine
import Offside.Proofs.Brackets
import Offside.Proofs.LineBreaks.Stranded
import Offside.Proofs.LineBreaks.Inserted
import Offside.Proofs.LineBreaks.Alongside
import Offside.Proofs.LineBreaks
import Offside.Proofs.LineBreaks.Settings
import Offside.Proofs.Layout.Printing
import Offside.Proofs.Layout.Lexical
import Offside.Proofs.Layout.Written
import Offside.Proofs.Layout.Reading
import Offside.Proofs.Layout.Trees
import Offside.Proofs.Layout
import Offside.Proofs.Reading.Compositional
import Offside.Proofs.Sessions
import Offside.Proofs.Sessions.Orderly
import Offside.Proofs.Termination
import Offside.Proofs.Joining.Below
import Offside.Proofs.Lexing
import Offside.Proofs.Positions
import Offside.Proofs.Joining
import Offside.Proofs.Run.Failure
import Offside.Proofs.Run.Reported
import Offside.Proofs.Limits
import Offside.Proofs.Limits.Depth
import Offside.Proofs.Appending
import Offside.Proofs.Grouping
import Offside.Proofs.Grouping.Bracketed
import Offside.Proofs.Relayout
import Offside.Proofs.Finished
import Offside.Proofs.Lexing.Order
import Offside.Proofs.Spans
import Offside.Proofs.Blocks
import Offside.Proofs.Diagnostics
import Offside.Proofs.Spellings
import Offside.Proofs.Nesting
import Offside.Proofs.Excerpt.Scanning
import Offside.Proofs.Excerpt.Reading
import Offside.Proofs.Excerpt
import Offside.Proofs.Rendering.Numbers
import Offside.Proofs.Rendering.Quoting
import Offside.Proofs.Rendering.Trees
import Offside.Proofs.Rendering
import Offside.Proofs.Lexing.Lines
import Offside.Proofs.Respacing
import Offside.Proofs.Matching
import Offside.Proofs.Lexing.Inserting
import Offside.Proofs.OneLine.Moving
import Offside.Proofs.OneLine.Replacing
import Offside.Proofs.Parentheses
import Offside.Proofs.Returns
import Offside.Proofs.Reports
import Offside.Proofs.CommandLine
import Offside.Proofs.Levels
