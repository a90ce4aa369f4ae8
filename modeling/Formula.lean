import Formula.Span
import Formula.Diagnostic
import Formula.Number.Layout
import Formula.Number.Numeral
import Formula.Text.Blank
import Formula.Cursor
import Formula.Expr.Parser
import Formula.Expr.Fold
import Formula.Program.Layout
import Formula.Journal
import Formula.Main
import Formula.Program.Listing
import Formula.Scope.Builtin
import Formula.Proofs.Grammar.Complete
import Formula.Proofs.Evaluation
import Formula.Proofs.Folding
import Formula.Proofs.Safety
import Formula.Proofs.Savings
import Formula.Proofs.Alike
import Formula.Proofs.Ending
import Formula.Proofs.Replay
import Formula.Proofs.Parses
import Formula.Proofs.Spelling
import Formula.Proofs.Grammar.Derivable
import Formula.Proofs.Viable
import Formula.Proofs.Pinpoint
import Formula.Proofs.Levels
import Formula.Proofs.Moves
import Formula.Proofs.Transparent
import Formula.Proofs.Shift
import Formula.Proofs.Reuse
import Formula.Proofs.Relocation
import Formula.Proofs.Spans
import Formula.Proofs.Slice
import Formula.Proofs.Lossless
import Formula.Proofs.Nested
import Formula.Proofs.Spacing
import Formula.Proofs.Shown
import Formula.Proofs.Substitution
import Formula.Proofs.Rebinding
import Formula.Proofs.Bindings
import Formula.Proofs.Dependencies
import Formula.Proofs.Correspondence
import Formula.Proofs.Constant
import Formula.Proofs.Nesting
import Formula.Proofs.Context
import Formula.Proofs.Checked.Calls
import Formula.Proofs.Folded
import Formula.Proofs.InPlace
import Formula.Proofs.Stretch
import Formula.Proofs.Elsewhere
import Formula.Proofs.Excerpts
import Formula.Proofs.ArgumentCount
import Formula.Proofs.Lookahead
import Formula.Proofs.Invalid
import Formula.Proofs.Literal
import Formula.Proofs.Height
import Formula.Proofs.Extremes
import Formula.Proofs.Disassembly
import Formula.Proofs.Pace
