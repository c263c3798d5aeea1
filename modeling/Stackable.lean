import Stackable.Allocation.Context
import Stackable.Allocation.Escape
import Stackable.Allocation.Site
import Stackable.Allocation.Size
import Stackable.Analysis
import Stackable.Command.Check
import Stackable.Command.Explain
import Stackable.Command.Inspect
import Stackable.Command.Outcome
import Stackable.Command.Run
import Stackable.CommandLine.Basic
import Stackable.CommandLine.Parse
import Stackable.Constant.Fold
import Stackable.Constant.Value
import Stackable.Diagnostic.Basic
import Stackable.Diagnostic.Code
import Stackable.Diagnostic.Convert
import Stackable.Diagnostic.Report
import Stackable.Diagnostic.Snippet
import Stackable.Dump.Basic
import Stackable.Dump.Label
import Stackable.Dump.Tree
import Stackable.Main
import Stackable.Model.Binding
import Stackable.Model.Evaluation
import Stackable.Number.Binary64
import Stackable.Number.Decimal
import Stackable.Parser.Decl
import Stackable.Parser.Error
import Stackable.Parser.Expr
import Stackable.Parser.Lookahead
import Stackable.Parser.State
import Stackable.Parser.Stmt
import Stackable.Parser.TypeRef
import Stackable.Proofs.Allocation.Findings
import Stackable.Proofs.Model.Evaluation
import Stackable.Proofs.Model.Scope
import Stackable.Proofs.Parser.Order
import Stackable.Proofs.Parser.Progress
import Stackable.Proofs.Respelling.Suggestion
import Stackable.Rule.Basic
import Stackable.Source.Span
import Stackable.Symbol.Special
import Stackable.Symbol.Table
import Stackable.Syntax.Decl
import Stackable.Syntax.Expr
import Stackable.Syntax.Node
import Stackable.Syntax.Stmt
import Stackable.Syntax.Tree
import Stackable.Syntax.TypeRef
import Stackable.Text.Bytes
import Stackable.Text.Distance
import Stackable.Text.Json
import Stackable.Text.Quoted
import Stackable.Text.Shapeless
import Stackable.Text.Style
import Stackable.Token.Basic
import Stackable.Token.Lexer
import Stackable.Token.Literal
import Stackable.Toml.Moment
import Stackable.Toml.Number
import Stackable.Toml.Reader
import Stackable.Toml.Value
import Stackable.Workspace.Config
import Stackable.Workspace.Path
import Stackable.Workspace.Sources
import Stackable.Workspace.Tree
import Stackable.Proofs.Syntax.Navigation
import Stackable.Proofs.Token.Alone
import Stackable.Proofs.Token.Coverage
import Stackable.Proofs.Parser.Places
import Stackable.Proofs.Parser.PlacesDecl
import Stackable.Proofs.Parser.Spans
import Stackable.Proofs.Parser.Steps
import Stackable.Proofs.Isolation.Tree
import Stackable.Proofs.Isolation.Model
import Stackable.Proofs.Isolation.Verdicts
import Stackable.Proofs.Parser.Angles
import Stackable.Proofs.Parser.ErrorLimit
import Stackable.Proofs.Model.Resolution
import Stackable.Proofs.Precedence.RoundTrip
import Stackable.Proofs.Allocation.Size
import Stackable.Proofs.Precedence.TypeTest
import Stackable.Proofs.Types.Commitment
import Stackable.Proofs.Types.Text
import Stackable.Proofs.Constant.Exact
import Stackable.Proofs.Model.Exactness
import Stackable.Proofs.Allocation.Location
import Stackable.Proofs.Diagnostic.Location
import Stackable.Proofs.Allocation.Order
import Stackable.Proofs.Command.Severity
import Stackable.Proofs.Diagnostic.Suggestion
import Stackable.Proofs.Symbol.Table
import Stackable.Proofs.Token.Quotation
import Stackable.Proofs.Command.Patterns
import Stackable.Proofs.Workspace.Listing
import Stackable.Proofs.Text.Candidates
import Stackable.Proofs.Diagnostic.Row
import Stackable.Proofs.Diagnostic.Underline
