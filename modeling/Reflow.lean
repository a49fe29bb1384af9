import Reflow.Options.Setting
import Reflow.Format
import Reflow.Proofs.Markup.Merging
import Reflow.Proofs.Markup.Trimming
import Reflow.Proofs.Doc.Outcome
import Reflow.Proofs.Markup.Row
import Reflow.Proofs.Text.Lexeme
import Reflow.Proofs.Markup.Outcome
import Reflow.Proofs.Markup.SetOut
import Reflow.Proofs.Markup.Written
import Reflow.Proofs.Host.Always
import Reflow.Proofs.Markup.Plain
import Reflow.Proofs.Format.Whitespace
import Reflow.Proofs.Markup.Texts
import Reflow.Proofs.Format.Idempotence
import Reflow.Proofs.Doc.Texts
import Reflow.Proofs.Doc.Agreement
import Reflow.Proofs.Doc.Steady
import Reflow.Proofs.Markup.Steady
import Reflow.Proofs.Markup.Inert
import Reflow.Proofs.Format.Width
import Reflow.Proofs.Host.Exchange
import Reflow.Proofs.Syntax.Expressions
import Reflow.Proofs.Markup.Asking
import Reflow.Proofs.Format.Questions
import Reflow.Proofs.Doc.Carrying
import Reflow.Proofs.Markup.Carrying
import Reflow.Proofs.Markup.Building
import Reflow.Proofs.Format.Breaking
import Reflow.Proofs.Markup.Brackets
import Reflow.Proofs.Format.Brackets
import Reflow.Proofs.Format.Failures
import Reflow.Proofs.Doc.Grouping
import Reflow.Proofs.Format.Wrapping
import Reflow.Proofs.Doc.Fitting
import Reflow.Proofs.Doc.Depth
import Reflow.Proofs.Doc.Choosing
import Reflow.Proofs.Doc.Conservation
import Reflow.Proofs.Doc.LineEnds
import Reflow.Proofs.Markup.Alternating
import Reflow.Proofs.Markup.Separators
import Reflow.Proofs.Syntax.Written
import Reflow.Proofs.Markup.Regular
import Reflow.Proofs.Markup.Grammar
import Reflow.Proofs.Markup.Fills
import Reflow.Proofs.Markup.OneLine
import Reflow.Proofs.Markup.Parens
import Reflow.Proofs.Format.Parens
import Reflow.Proofs.Doc.Raising
import Reflow.Proofs.Doc.Bracketed
import Reflow.Proofs.Format.Braces
import Reflow.Proofs.Format.Embedded
import Reflow.Proofs.Doc.Levels
import Reflow.Proofs.Format.Stable
import Reflow.Proofs.Format.Neat
import Reflow.Proofs.Format.Attributes
import Reflow.Proofs.Format.Blocks
import Reflow.Proofs.Format.Alike
import Reflow.Proofs.Doc.Visible
import Reflow.Proofs.Markup.Settled
import Reflow.Proofs.Markup.Uncommented
import Reflow.Proofs.Text.Decomposition
import Reflow.Proofs.Doc.OneLine
import Reflow.Proofs.Format.SelfClosing
import Reflow.Proofs.Markup.Draining
import Reflow.Proofs.Layout.Strokes
import Reflow.Proofs.Doc.EmptyLines
