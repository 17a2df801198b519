import Clausal.Span
import Clausal.Text.Blank
import Clausal.Text.Bytes
import Clausal.Text.Printable
import Clausal.Text.Quoted
import Clausal.Decimal.Notation
import Clausal.Token.Stream
import Clausal.Token.Literal
import Clausal.Tree.Equality
import Clausal.Tree.Printer
import Clausal.Tree.Outline
import Clausal.Grammar.Program
import Clausal.Evaluation.Machine
import Clausal.Evaluation.Interpreter
import Clausal.Session.Repl
import Clausal.Main
import Clausal.Proofs.Tree.Reprinting
import Clausal.Proofs.Grammar.Uniqueness
import Clausal.Proofs.Token.Spelling
import Clausal.Proofs.Tree.Pieces
import Clausal.Proofs.Tree.Spans
import Clausal.Proofs.Tree.Printing
import Clausal.Proofs.Tree.Reparsing
import Clausal.Proofs.Tree.Guards
import Clausal.Proofs.Evaluation.Purity
import Clausal.Proofs.Evaluation.Completion
import Clausal.Proofs.Evaluation.Limit
import Clausal.Proofs.Evaluation.Adequacy
import Clausal.Proofs.Grammar.Moving
import Clausal.Proofs.Evaluation.Relabeling
import Clausal.Proofs.Session.Nesting
import Clausal.Proofs.Session.LineByLine
import Clausal.Proofs.Grammar.Prefixes
import Clausal.Proofs.Grammar.Building
import Clausal.Proofs.Session.Waiting
import Clausal.Proofs.Session.Places
import Clausal.Proofs.Session.Failing
import Clausal.Proofs.Evaluation.Unlabeled
import Clausal.Proofs.Evaluation.Backtraces
import Clausal.Proofs.Evaluation.Callers
import Clausal.Proofs.Token.Layout
import Clausal.Proofs.Token.Rules
import Clausal.Proofs.Token.Longest
import Clausal.Proofs.Token.Munch
import Clausal.Proofs.Evaluation.Values
import Clausal.Proofs.Session.Values
import Clausal.Proofs.Grammar.Lexing
import Clausal.Proofs.Grammar.Sequence
import Clausal.Proofs.Grammar.Conservation
import Clausal.Proofs.Token.Spacing
import Clausal.Proofs.Grammar.Conditions
import Clausal.Proofs.Evaluation.Forms
import Clausal.Proofs.Evaluation.Independence
import Clausal.Proofs.Grammar.Geometry
import Clausal.Proofs.Token.Quoting
import Clausal.Proofs.Report.Lines
import Clausal.Proofs.Report.Underlines
import Clausal.Proofs.Report.Ranges
import Clausal.Proofs.Value.Rendering
import Clausal.Proofs.Token.Cutting
import Clausal.Proofs.Grammar.Cores
import Clausal.Proofs.Grammar.Slices
import Clausal.Proofs.Grammar.Termination
