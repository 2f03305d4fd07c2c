import TillLang.Command.Argument
import TillLang.Command.Folder
import TillLang.Command.Outcome
import TillLang.Command.Path
import TillLang.Command.Settings
import TillLang.Decimal.Binary
import TillLang.Decimal.Layout
import TillLang.Decimal.Reading
import TillLang.Decimal.Shortest
import TillLang.Eval.Machine
import TillLang.Eval.World
import TillLang.Grammar.Automaton
import TillLang.Grammar.Lookahead
import TillLang.Grammar.Rule
import TillLang.Grammar.Run
import TillLang.Grammar.Symbol
import TillLang.Grammar.Table
import TillLang.Grammar.Tree
import TillLang.Json.Basic
import TillLang.Json.Reader
import TillLang.Json.Writer
import TillLang.Location
import TillLang.Main
import TillLang.Parse.Cursor
import TillLang.Parse.Descent
import TillLang.Parse.Fault
import TillLang.Pipeline
import TillLang.Store.Arena
import TillLang.Store.Value
import TillLang.Syntax.Basic
import TillLang.Syntax.Codec
import TillLang.Syntax.Equality
import TillLang.Syntax.Printer
import TillLang.Syntax.Raw
import TillLang.Text.Blank
import TillLang.Text.Inspect
import TillLang.Text.Letter
import TillLang.Text.LineEnd
import TillLang.Text.Numeral
import TillLang.Text.Printable
import TillLang.Text.Quoted
import TillLang.Text.Ranges
import TillLang.Text.Utf8
import TillLang.Token.Basic
import TillLang.Token.Layout
import TillLang.Token.Line
import TillLang.Typing.Check
import TillLang.Typing.Scope
import TillLang.Proofs.Grammar.Derivation
import TillLang.Proofs.Grammar.Certificate
import TillLang.Proofs.Grammar.Acceptance
import TillLang.Proofs.Grammar.Table
import TillLang.Proofs.Token.Stream
import TillLang.Proofs.Parse.Sound
import TillLang.Proofs.Parse.Complete
import TillLang.Proofs.Grammar.Meaning
import TillLang.Proofs.Grammar.Existence
import TillLang.Proofs.Agreement
import TillLang.Proofs.Decimal.Plain
import TillLang.Proofs.Eval.Ends
import TillLang.Proofs.Eval.Steady
import TillLang.Proofs.Typing.Accept
import TillLang.Proofs.Typing.Reach
import TillLang.Proofs.Eval.Mirror
import TillLang.Proofs.Parse.Formed
import TillLang.Proofs.Store.Binding
import TillLang.Proofs.Store.Typed
import TillLang.Proofs.Eval.Soundness
import TillLang.Proofs.Token.Places
import TillLang.Proofs.Typing.Sites
import TillLang.Proofs.Token.Readable
import TillLang.Proofs.Grammar.Construction
import TillLang.Proofs.Recognition
import TillLang.Proofs.Eval.Invariant
import TillLang.Proofs.Eval.Resolution
import TillLang.Proofs.Grammar.Viable
import TillLang.Proofs.Parse.Blame
import TillLang.Proofs.Parse.Depth
import TillLang.Proofs.Grammar.Refusal
import TillLang.Proofs.Rejection
import TillLang.Proofs.Decimal.Rounding
import TillLang.Proofs.Decimal.Numeral
import TillLang.Proofs.Decimal.Double
import TillLang.Proofs.Syntax.Bare
import TillLang.Proofs.Token.Written
import TillLang.Proofs.Print.Expression
import TillLang.Proofs.Print.Layout
import TillLang.Proofs.Print.Literal
import TillLang.Proofs.Print.Statement
import TillLang.Proofs.Eval.Unplaced
import TillLang.Proofs.Formatting
import TillLang.Proofs.Eval.Confined
import TillLang.Proofs.Eval.Unchecked
import TillLang.Proofs.Syntax.Raw
import TillLang.Proofs.Syntax.Codec
import TillLang.Proofs.Token.Inside
import TillLang.Proofs.Answer
import TillLang.Proofs.Token.Lines
import TillLang.Proofs.Token.Tiling
import TillLang.Proofs.Token.Blocks
import TillLang.Proofs.Token.Shape
import TillLang.Proofs.Token.Offside
import TillLang.Proofs.Parse.Relocated
import TillLang.Proofs.Token.Relaid
import TillLang.Proofs.Relayout
import TillLang.Proofs.Token.Seam
import TillLang.Proofs.Concatenation
import TillLang.Proofs.Typing.Rules
import TillLang.Proofs.Typing.Decision
import TillLang.Proofs.Eval.Plain
import TillLang.Proofs.Typing.Restored
import TillLang.Proofs.Eval.Detail
import TillLang.Proofs.Loading
import TillLang.Proofs.Parse.Consumed
import TillLang.Proofs.Positions
import TillLang.Proofs.Print.Count
import TillLang.Proofs.Brevity
import TillLang.Proofs.Print.Quoting
import TillLang.Proofs.Print.Number
import TillLang.Proofs.Parse.Loop
import TillLang.Proofs.Parse.Progress
import TillLang.Proofs.Progress
